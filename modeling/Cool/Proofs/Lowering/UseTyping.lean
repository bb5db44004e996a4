import Cool.Proofs.Lowering.Uses
import Cool.Proofs.Typing.Agreement

/-! Uses in checked code. The class of the value that an expression leaves and the class it is asked
at lie above the class that represents the type of the expression, so that a cast from the one to
the other narrows. -/

namespace Cool.Lowering

open Wat Typing

/-! ## Classes that are asked -/

theorem toOption_eq_some_iff {ε α : Type} {x : Except ε α} {a : α} :
    x.toOption = some a ↔ x = .ok a := by
  cases x with
  | error e => exact ⟨nofun, nofun⟩
  | ok b =>
      rw [Except.ok.injEq]
      exact Option.some_inj

/-- A site that sees what the scope of checking held, the receiver included. -/
structure Site.Agrees (site : Site) (cx : Context) (L : Env) : Prop extends site.Matches cx L where
  covers : cx.Covers L
  self : L .self = some .selfType

section

variable {cx : Context} {site : Site} {L : Env}

theorem Site.Agrees.bind (hsite : site.Agrees cx L) {x t : Name} (hx : x ≠ .self)
    (ht : cx.IsType t) : (site.bind x t).Agrees cx (L.bind x t) :=
  ⟨hsite.toMatches.bind x t, hsite.covers.bind ht, by rw [Env.bind, if_neg hx.symm, hsite.self]⟩

theorem Site.Matches.layout_eq (hm : site.Matches cx L) {t c : Name}
    (hc : site.layout t = .ok c) : c = Members.resolve t cx.current := by
  rw [(Site.layout_eq_ok hc).1, hm.current]

/-- The class that stands for a type, if it is not the self type, is the type. -/
theorem inherits_of_ne_selfType {c : Name} (hc : c ≠ .selfType) :
    cx.hierarchy.Inherits (Members.resolve c cx.current) c := by
  rw [Members.resolve, if_neg hc]
  exact .refl c

variable (hcx : cx.Installed)

include hcx

/-- An attribute holds values of every type that conforms to its own. -/
theorem inherits_attributeLayout {a : AttributeEntry}
    (ha : a ∈ cx.members.attributes cx.current cx.current) {t : Name}
    (ht : cx.Conforms t a.type) :
    cx.hierarchy.Inherits (Members.resolve t cx.current) (attributeLayout a) := by
  have hinherits := ht.inherits hcx.rooted
  unfold attributeLayout
  split
  · rename_i hself
    rw [hself, Members.resolve, Members.resolve, if_pos rfl] at hinherits
    exact hinherits.trans (hcx.coherent.seenAttribute hcx.current_mem a ha).below_owner
  · rename_i hclass
    rwa [Members.resolve, Members.resolve, if_neg hclass] at hinherits

/-- So does a variable of any kind. -/
theorem Site.Agrees.inherits_stored (hsite : site.Agrees cx L) {x t u want : Name}
    (hself : x ≠ .self) (hx : L x = some u) (ht : cx.Conforms t u)
    (hwant : site.stored x = .ok want) :
    cx.hierarchy.Inherits (Members.resolve t cx.current) want := by
  obtain ⟨place, hlookup⟩ := hsite.toMatches.binding hself hx
  rw [Site.stored, Site.binding_of_lookup hlookup] at hwant
  cases place with
  | «local» =>
      rw [hsite.toMatches.layout_eq hwant]
      exact ht.inherits hcx.rooted
  | field =>
      obtain ⟨a, ha, -, rfl, rfl⟩ := hsite.toMatches.attribute hcx hlookup hwant
      exact inherits_attributeLayout hcx ha ht

/-- A type is represented above the classes of what conforms to it. -/
theorem Site.Agrees.inherits_layout (hsite : site.Agrees cx L) {t u want : Name}
    (ht : cx.Conforms t u) (hwant : (site.layout u).toOption = some want) :
    cx.hierarchy.Inherits (Members.resolve t cx.current) want := by
  rw [hsite.toMatches.layout_eq (toOption_eq_some_iff.mp hwant)]
  exact ht.inherits hcx.rooted

/-- A method that a type offers was introduced above the class of the type. -/
theorem inherits_intro {t : Name} (ht : cx.IsType t) {f : MethodEntry} (hoffers : cx.Offers t f) :
    cx.hierarchy.Inherits (Members.resolve t cx.current) f.intro := by
  have hseen := hcx.seenMethod ht hoffers
  exact hseen.below_definer.trans hseen.below_intro

/-- The result of a call is represented above the class of its type. -/
theorem inherits_resultLayout {t c : Name} (hc : cx.IsType c) {f : MethodEntry}
    (hoffers : cx.Offers c f)
    (ht : cx.hierarchy.Inherits (Members.resolve t cx.current) (Members.resolve c cx.current)) :
    cx.hierarchy.Inherits (Members.resolve (Context.callType f t) cx.current) (resultLayout f) := by
  unfold Context.callType resultLayout
  split
  · exact ht.trans (inherits_intro hcx hc hoffers)
  · rename_i hclass
    exact inherits_of_ne_selfType hclass

end

/-! ## Uses in checked code -/

/-- A use of a checked expression at a class above the one that represents its type. -/
def Use.Typed (cx : Context) (u : Use) : Prop :=
  ∃ L e t, HasType cx L e u.expr t ∧ u.site.Agrees cx L ∧
    ∀ want, u.want = some want → cx.hierarchy.Inherits (Members.resolve t cx.current) want

section

variable {cx : Context} (hcx : cx.Installed) {site : Site} {L : Env}

include hcx

omit hcx in
/-- A part whose value is used as it is. -/
theorem typed_unasked (hsite : site.Agrees cx L) {e e' : Expr} {t : Name}
    (he : HasType cx L e e' t) : Use.Typed cx ⟨site, e', none⟩ :=
  ⟨L, e, t, he, hsite, nofun⟩

omit hcx in
/-- A part that is asked at its type. -/
theorem typed_exact (hsite : site.Agrees cx L) {e e' : Expr} {c : Name} (he : HasType cx L e e' c)
    (hc : c ≠ .selfType) : Use.Typed cx ⟨site, e', some c⟩ := by
  refine ⟨L, e, c, he, hsite, ?_⟩
  rintro _ ⟨⟩
  exact inherits_of_ne_selfType hc

/-- A part that is asked at the class of a type it conforms to. -/
theorem typed_layout (hsite : site.Agrees cx L) {e e' : Expr} {t u : Name}
    (he : HasType cx L e e' t) (ht : cx.Conforms t u) :
    Use.Typed cx ⟨site, e', (site.layout u).toOption⟩ :=
  ⟨L, e, t, he, hsite, fun _ => hsite.inherits_layout hcx ht⟩

/-- A body that sees one more variable. -/
theorem typed_body (hsite : site.Agrees cx L) {x t : Name} (hx : x ≠ .self) (ht : cx.IsType t)
    {e e' : Expr} {t₁ t₂ : Name} (he : HasType cx (L.bind x t) e e' t₁) (hfit : cx.Conforms t₁ t₂) :
    Use.Typed cx ⟨site.bind x t, e', (site.layout t₂).toOption⟩ :=
  ⟨_, e, t₁, he, hsite.bind hx ht, fun _ => hsite.inherits_layout hcx hfit⟩

omit hcx in
/-- The operands of an operator on integers. -/
theorem typed_integers (hsite : site.Agrees cx L) {op : BinaryOp} (hop : op ≠ .eq)
    {e₁ e₁' e₂ e₂' : Expr} (h₁ : HasType cx L e₁ e₁' .int) (h₂ : HasType cx L e₂ e₂' .int)
    (m : Mark) : ∀ v ∈ site.uses (.binary m op e₁' e₂'), v.Typed cx := by
  have hint : operandClass? op e₁'.type = some .int := if_neg hop
  rw [Site.uses, hint]
  exact List.forall_mem_cons.mpr ⟨typed_exact hsite h₁ (by decide),
    List.forall_mem_singleton.mpr (typed_exact hsite h₂ (by decide))⟩

theorem typed_arguments (hsite : site.Agrees cx L) {es es' : List Expr} {ts : List Name}
    (hes : HasTypes cx L es es' ts) {ps : List Parameter}
    (hps : ∀ p ∈ ps, p.type ∈ cx.hierarchy.names)
    (htakes : List.Forall₂ (fun p t => cx.Conforms t p.type) ps ts) :
    ∀ v ∈ List.zipWith (fun e p => (⟨site, e, some p.type⟩ : Use)) es' ps, v.Typed cx := by
  induction es' generalizing es ts ps with
  | nil => exact nofun
  | cons e' es' ih =>
      cases hes with
      | cons he hes =>
          cases htakes with
          | cons hp htakes =>
              obtain ⟨hmem, hps⟩ := List.forall_mem_cons.mp hps
              refine List.forall_mem_cons.mpr ⟨⟨L, _, _, he, hsite, ?_⟩, ih hes hps htakes⟩
              rintro _ ⟨⟩
              have hinherits := hp.inherits hcx.rooted
              rwa [Members.resolve, Members.resolve,
                if_neg (hcx.coherent.ne_selfType hmem)] at hinherits

theorem typed_callUses (hsite : site.Agrees cx L) {e e' : Expr} {t c : Name} {f : MethodEntry}
    {es es' : List Expr} {ts : List Name} (he : HasType cx L e e' t) (hes : HasTypes cx L es es' ts)
    (hc : cx.IsType c)
    (ht : cx.hierarchy.Inherits (Members.resolve t cx.current) (Members.resolve c cx.current))
    (hoffers : cx.Offers c f) (htakes : cx.Takes f ts) :
    ∀ v ∈ site.callUses e' es' (site.method c f.name), v.Typed cx := by
  cases hentry : site.method c f.name with
  | error => exact nofun
  | ok entry =>
      obtain rfl := hsite.toMatches.method_eq hcx hc hoffers hentry
      refine List.forall_mem_cons.mpr ⟨⟨L, e, t, he, hsite, ?_⟩, ?_⟩
      · rintro _ ⟨⟩
        exact ht.trans (inherits_intro hcx hc hoffers)
      · exact typed_arguments hcx hsite hes (hcx.seenMethod hc hoffers).params_typed htakes

theorem typed_branches (hsite : site.Agrees cx L) {bs bs' : List Branch} {ts : List Name}
    (hbs : HasBranches cx L bs bs' ts) {t : Name} (hts : ∀ u ∈ ts, cx.Conforms u t) :
    ∀ b ∈ bs', Use.Typed cx
      ⟨site.bind b.name b.type, b.body, (site.layout t).toOption⟩ := by
  induction bs' generalizing bs ts with
  | nil => exact nofun
  | cons b bs' ih =>
      cases hbs with
      | cons hx hc he hbs =>
          obtain ⟨ht, hts⟩ := List.forall_mem_cons.mp hts
          exact List.forall_mem_cons.mpr ⟨typed_body hcx hsite hx (.inr hc) he ht, ih hbs hts⟩

/-- The parts of an expression that was checked are used as they were. -/
theorem Use.Typed.uses {u v : Use} (hu : u.Typed cx) (hv : v ∈ u.site.uses u.expr) :
    v.Typed cx := by
  obtain ⟨site, e', _⟩ := u
  obtain ⟨L, e, t, he, hsite, -⟩ := hu
  cases he with
  | object | int | string | bool | new => cases hv
  | @assign _ _ _ e _ t _ hself hx he hconforms =>
      rw [List.mem_singleton.mp hv]
      refine ⟨L, e, t, he, hsite, fun want hwant => ?_⟩
      exact hsite.inherits_stored hcx hself hx hconforms (toOption_eq_some_iff.mp hwant)
  | @dispatch _ _ _ e' t f _ args' _ he hargs hoffers htakes =>
      have hcall : v ∈ site.callUses e' args' (site.method e'.type f.name) := hv
      rw [he.type_eq] at hcall
      exact typed_callUses hcx hsite he hargs (he.isType hcx hsite.covers) (.refl _) hoffers
        htakes v hcall
  | staticDispatch he hargs hc hconforms hoffers htakes =>
      exact typed_callUses hcx hsite he hargs (.inr hc) (hconforms.inherits hcx.rooted) hoffers
        htakes v hv
  | cond h₀ h₁ h₂ hjoin =>
      simp only [Site.uses, List.mem_cons, List.not_mem_nil, or_false] at hv
      rcases hv with rfl | rfl | rfl
      · exact typed_exact hsite h₀ (by decide)
      · exact typed_layout hcx hsite h₁ (hjoin.upper _ List.mem_cons_self)
      · exact typed_layout hcx hsite h₂ (hjoin.upper _ (List.mem_cons_of_mem _ List.mem_cons_self))
  | loop h₀ h₁ =>
      rcases List.mem_pair.mp hv with rfl | rfl
      · exact typed_exact hsite h₀ (by decide)
      · exact typed_unasked hsite h₁
  | block hes =>
      obtain ⟨e', he', rfl⟩ := List.mem_map.mp hv
      obtain ⟨e, t, he⟩ := hes.exists_hasType he'
      exact typed_unasked hsite he
  | @caseOf _ _ e _ t _ _ _ _ he hbs _ _ hjoin =>
      rcases List.mem_cons.mp hv with rfl | hv
      · refine ⟨L, e, t, he, hsite, ?_⟩
        rintro _ ⟨⟩
        exact Hierarchy.inherits_object hcx.rooted (hcx.resolve_mem (he.isType hcx hsite.covers))
      · obtain ⟨b, hb, rfl⟩ := List.mem_map.mp hv
        exact typed_branches hcx hsite hbs hjoin.upper b hb
  | letIn hx ht h₀ hconforms h₁ =>
      have hbody := (hsite.bind hx ht).covers
      rcases List.mem_append.mp hv with hv | hv
      · split at hv
        · cases hv
        · rw [List.mem_singleton.mp hv]
          exact typed_layout hcx hsite h₀ hconforms
      · rw [List.mem_singleton.mp hv]
        exact typed_body hcx hsite hx ht h₁ (.refl (h₁.isType hcx hbody))
  | letDefault hx ht habsent h₁ =>
      have hbody := (hsite.bind hx ht).covers
      rcases List.mem_append.mp hv with hv | hv
      · rw [if_pos ((Expr.isAbsent_untyped _).trans habsent)] at hv
        cases hv
      · rw [List.mem_singleton.mp hv]
        exact typed_body hcx hsite hx ht h₁ (.refl (h₁.isType hcx hbody))
  | @arithmetic _ _ op _ _ _ _ hop h₁ h₂ =>
      have hne : op ≠ .eq := by
        rintro rfl
        cases hop
      exact typed_integers hsite hne h₁ h₂ _ v hv
  | comparison _ hne h₁ h₂ => exact typed_integers hsite hne h₁ h₂ _ v hv
  | @equality _ _ e₁ e₁' t₁ e₂ e₂' t₂ h₁ h₂ hsame =>
      rw [Site.uses, h₁.type_eq, operandClass?, if_pos rfl, List.mem_pair] at hv
      split at hv
      · rename_i hprim
        have hself : t₁ ≠ .selfType := by
          rintro rfl
          cases hprim
        rcases hv with rfl | rfl
        · exact typed_exact hsite h₁ hself
        · exact typed_exact hsite (hsame (.inl hprim) ▸ h₂) hself
      · rcases hv with rfl | rfl
        · exact typed_unasked hsite h₁
        · exact typed_unasked hsite h₂
  | neg he | comp he =>
      rw [List.mem_singleton.mp hv]
      exact typed_exact hsite he (by decide)
  | @test _ _ op _ e' _ hneg hcomp he =>
      have hpart : v = ⟨site, e', none⟩ := by
        cases op with
        | neg => exact absurd rfl hneg
        | comp => exact absurd rfl hcomp
        | isvoid | unknown => exact List.mem_singleton.mp hv
      rw [hpart]
      exact typed_unasked hsite he

theorem Use.Typed.asks {u v : Use} (hu : u.Typed cx) (hv : u.Asks v) : v.Typed cx := by
  induction hv with
  | refl => exact hu
  | tail _ hpart ih => exact ih.uses hcx hpart

/-! ## Classes of values -/

theorem Site.Agrees.above_read (hsite : site.Agrees cx L) {x t : Name} (hx : L x = some t)
    {code : Code} (hcode : site.Reads x code) :
    cx.hierarchy.Inherits (Members.resolve t cx.current) code.cls := by
  have hrefl : cx.Conforms t t := .refl (hsite.covers x t hx)
  cases hcode with
  | self =>
      rw [hsite.self] at hx
      cases hx
      rw [hsite.current]
      exact .refl _
  | field hself hlookup hc =>
      exact hsite.inherits_stored hcx hself hx hrefl (Site.stored_of_field hlookup hc)
  | «local» hself hlookup hc =>
      exact hsite.inherits_stored hcx hself hx hrefl (Site.stored_of_local hlookup hc)

theorem Site.above_allocate (site : Site) {t : Name} (ht : cx.IsType t) :
    cx.hierarchy.Inherits (Members.resolve t cx.current) (site.allocate t).cls := by
  unfold Site.allocate
  split
  · exact Hierarchy.inherits_object hcx.rooted (hcx.resolve_mem ht)
  · rename_i hself
    exact inherits_of_ne_selfType hself

omit hcx in
/-- An expression that is laid out by its type. -/
theorem Site.Agrees.above_layout (hsite : site.Agrees cx L) {e e' : Expr} {t c : Name}
    (h : HasType cx L e e' t) (hc : site.layout e'.type = .ok c) :
    cx.hierarchy.Inherits (Members.resolve t cx.current) c := by
  rw [hsite.toMatches.layout_eq hc, h.type_eq]
  exact .refl _

end

mutual

/-- The code of a checked expression leaves a value of a class above the one of its type. -/
theorem Lowers.above {cx : Context} (hcx : cx.Installed) : ∀ {site : Site} {L : Env} {e e' : Expr}
    {t : Name} {s s' : Progress} {code : Code}, Lowers site e' s code s' → HasType cx L e e' t →
    site.Agrees cx L → cx.hierarchy.Inherits (Members.resolve t cx.current) code.cls
  | _, _, _, _, _, _, _, _, .int _ _, h, _ => by
      cases h
      exact inherits_of_ne_selfType (by decide)
  | _, _, _, _, _, _, _, _, .string _, h, _ => by
      cases h
      exact inherits_of_ne_selfType (by decide)
  | _, _, _, _, _, _, _, _, .bool, h, _ => by
      cases h
      exact inherits_of_ne_selfType (by decide)
  | _, _, _, _, _, _, _, _, .object hcode, h, hsite => by
      cases h with
      | object hx => exact hsite.above_read hcx hx hcode
  | _, _, _, _, _, _, _, _, .assignLocal hlookup hwant _, h, hsite => by
      cases h with
      | assign hself hx _ hconforms =>
          exact hsite.inherits_stored hcx hself hx hconforms (Site.stored_of_local hlookup hwant)
  | _, _, _, _, _, _, _, _, .assignField hlookup hwant _, h, hsite => by
      cases h with
      | assign hself hx _ hconforms =>
          exact hsite.inherits_stored hcx hself hx hconforms (Site.stored_of_field hlookup hwant)
  | site, _, _, _, _, _, _, _, .new, h, _ => by
      cases h with
      | new ht => exact site.above_allocate hcx ht
  | _, _, _, _, _, _, _, _, .dispatch ht hentry _ _, h, hsite => by
      cases h with
      | dispatch he _ hoffers _ =>
          obtain rfl := (type_of_typeOf ht).symm.trans he.type_eq
          have htype := he.isType hcx hsite.covers
          obtain rfl := hsite.toMatches.method_eq hcx htype hoffers hentry
          exact inherits_resultLayout hcx htype hoffers (.refl _)
  | _, _, _, _, _, _, _, _, .staticDispatch hentry _ _, h, hsite => by
      cases h with
      | staticDispatch _ _ hc hconforms hoffers _ =>
          obtain rfl := hsite.toMatches.method_eq hcx (.inr hc) hoffers hentry
          exact inherits_resultLayout hcx (.inr hc) hoffers (hconforms.inherits hcx.rooted)
  | _, _, _, _, _, _, _, _, .cond hwant _ _ _, h, hsite => hsite.above_layout h hwant
  | _, _, _, _, _, _, _, _, .loop _ _ _ _, h, _ => by
      cases h
      exact inherits_of_ne_selfType (by decide)
  | _, _, _, _, _, _, _, _, .blockNil, h, _ => by
      cases h with
      | block hes =>
          cases hes
          exact inherits_of_ne_selfType (by decide)
  | _, _, _, _, _, _, _, _, .block he hrest, h, hsite => by
      cases h with
      | block hes =>
          cases hes with
          | cons htype htypes =>
              rw [List.getLastD_cons]
              exact hrest.above hcx htypes hsite (he.above hcx htype hsite)
  | site, _, _, _, _, _, _, _, @Lowers.equality _ _ _ _ t l r _ _ _ _ _ _, h, _ => by
      have hbool : (site.equality t l r).cls = .bool := by
        unfold Site.equality
        split
        · rfl
        · split <;> rfl
      rw [hbool]
      cases h with
      | equality => exact inherits_of_ne_selfType (by decide)
      | arithmetic hop => cases hop
      | comparison _ hop => exact absurd rfl hop
  | _, _, _, _, _, _, _, _, .integer hop _ _, h, _ => by
      cases h with
      | equality => cases hop
      | arithmetic harith =>
          rw [Site.integerCode, if_pos harith]
          exact inherits_of_ne_selfType (by decide)
      | comparison harith _ =>
          rw [Site.integerCode, if_neg (Bool.eq_false_iff.mp harith)]
          exact inherits_of_ne_selfType (by decide)
  | _, _, _, _, _, _, _, _, .neg _, h, _ => by
      cases h with
      | neg => exact inherits_of_ne_selfType (by decide)
      | test hop => exact absurd rfl hop
  | _, _, _, _, _, _, _, _, .comp _, h, _ => by
      cases h with
      | comp => exact inherits_of_ne_selfType (by decide)
      | test _ hop => exact absurd rfl hop
  | _, _, _, _, _, _, _, _, .isvoid _, h, _ => by
      cases h
      exact inherits_of_ne_selfType (by decide)
  | _, _, _, _, _, _, _, _, .letIn _ _ hvalue _ _, h, hsite => hsite.above_layout h hvalue
  | _, _, _, _, _, _, _, _, .caseOf _ hvalue _ _ _ _, h, hsite => hsite.above_layout h hvalue

theorem LowersRest.above {cx : Context} (hcx : cx.Installed) : ∀ {site : Site} {L : Env}
    {before code : Code} {es es' : List Expr} {t : Name} {ts : List Name} {s s' : Progress},
    LowersRest site before es' s code s' → HasTypes cx L es es' ts → site.Agrees cx L →
    cx.hierarchy.Inherits (Members.resolve t cx.current) before.cls →
    cx.hierarchy.Inherits (Members.resolve (ts.getLastD t) cx.current) code.cls
  | _, _, _, _, _, _, _, _, _, _, .nil, htypes, _, hbefore => by
      cases htypes
      exact hbefore
  | _, _, _, _, _, _, _, _, _, _, .cons he hrest, htypes, hsite, _ => by
      cases htypes with
      | cons htype htypes =>
          rw [List.getLastD_cons]
          exact hrest.above hcx htypes hsite (he.above hcx htype hsite)

end

/-! ## Casts -/

/-- How the value of a class is brought to the class it is asked at: both lie above the class of the
type, so that a cast goes down the chain, and there is none where the value is good as it is. -/
structure Use.Narrows (h : Hierarchy) (u : Use) (found : Name) : Prop where
  above : h.Inherits u.layout found
  asked : ∀ want, u.want = some want → h.Inherits u.layout want
  kept : ∀ want, u.want = some want → h.Inherits found want → u.site.coerce found want = []
  narrowed : ∀ want, u.want = some want → ¬ h.Inherits found want →
    u.site.coerce found want = [.plain (.refCast (valueType want)) []] ∧
      h.Inherits want found ∧ want ≠ found

theorem Use.Typed.narrows {cx : Context} (hcx : cx.Proper) {u : Use} (hu : u.Typed cx)
    {s s' : Progress} {code : Code} (hrun : lower u.site u.expr s = .ok (code, s')) :
    u.Narrows cx.hierarchy code.cls := by
  obtain ⟨L, e, t, he, hsite, hasked⟩ := hu
  have hlayout : u.layout = Members.resolve t cx.current := by
    rw [Use.layout, he.type_eq, hsite.current]
  have hmem := hcx.resolve_mem (he.isType hcx.toInstalled hsite.covers)
  have habove := (lower_eq_ok_iff.mp hrun).above hcx.toInstalled he hsite
  have hconforms : ∀ want, u.want = some want →
      (u.site.members.hierarchy.conforms code.cls want u.site.current = true ↔
        cx.hierarchy.Inherits code.cls want) := by
    intro want hwant
    rw [hsite.members]
    exact Hierarchy.conforms_classes_iff hcx.rooted hcx.errType_not_mem
      (habove.mem_names hcx.rooted hmem) ((hasked want hwant).mem_names hcx.rooted hmem)
  refine ⟨hlayout ▸ habove, fun want hwant => hlayout ▸ hasked want hwant,
    fun want hwant hfound => ?_, fun want hwant hfound => ⟨?_, ?_, ?_⟩⟩
  · rw [Site.coerce, if_pos ((hconforms want hwant).mpr hfound)]
  · rw [Site.coerce, if_neg fun hc => hfound ((hconforms want hwant).mp hc)]
  · exact (habove.total (hasked want hwant)).resolve_left hfound
  · rintro rfl
    exact hfound (.refl _)

end Cool.Lowering
