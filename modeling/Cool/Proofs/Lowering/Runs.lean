import Cool.Proofs.Lowering.Derivation

/-! The rules of lowering give what lowering runs to: a derivation is a successful run. -/

namespace Cool.Lowering

open Wat

namespace Site

variable {site : Site}

theorem Reads.run {x : Name} {code : Code} (h : site.Reads x code) : site.read x = .ok code := by
  cases h with
  | self => exact read_self
  | field hx hlookup hc => exact read_field hx hlookup hc
  | «local» hx hlookup hc =>
      rw [read_local hx hlookup, hc]
      rfl

theorem Defaults.run {t : Name} {i : Instr} (h : site.Defaults t i) :
    site.defaultValue t = .ok i := by
  unfold defaultValue
  cases h with
  | int hg =>
      rw [if_pos rfl, hg]
      rfl
  | string hg =>
      rw [if_neg (by decide), if_pos rfl, hg]
      rfl
  | bool => rfl
  | void ht hc =>
      simp only [Name.isPrimitive, Bool.or_eq_false_iff, decide_eq_false_iff_not] at ht
      obtain ⟨⟨hint, hstring⟩, hbool⟩ := ht
      rw [if_neg hint, if_neg hstring, if_neg hbool, hc]
      rfl

end Site

mutual

theorem Lowers.run : ∀ {site : Site} {e : Expr} {s s' : Progress} {code : Code},
    Lowers site e s code s' → lower site e s = .ok (code, s')
  | _, _, _, _, _, .int hn hg => by
      rw [lower, hn]
      exact lift_bind_eq_ok.mpr ⟨_, hg, rfl⟩
  | _, _, _, _, _, .string hg => by
      rw [lower]
      exact lift_bind_eq_ok.mpr ⟨_, hg, rfl⟩
  | _, _, _, _, _, .bool => by
      rw [lower]
      rfl
  | _, _, _, _, _, .object hcode => by
      rw [lower]
      exact lift_eq_ok.mpr ⟨hcode.run, rfl⟩
  | _, _, _, _, _, .assignLocal hx hwant hvalue => by
      rw [lower]
      refine lift_bind_eq_ok.mpr ⟨_, Site.binding_of_lookup hx, ?_⟩
      exact lift_bind_eq_ok.mpr ⟨_, hwant, bind_eq_ok.mpr ⟨_, _, hvalue.run, rfl⟩⟩
  | _, _, _, _, _, .assignField hx hwant hvalue => by
      rw [lower]
      refine lift_bind_eq_ok.mpr ⟨_, Site.binding_of_lookup hx, ?_⟩
      exact lift_bind_eq_ok.mpr ⟨_, hwant, bind_eq_ok.mpr ⟨_, _, hvalue.run, rfl⟩⟩
  | _, _, _, _, _, .new => by
      rw [lower]
      rfl
  | _, _, _, _, _, .dispatch ht hentry hargs hreceiver => by
      rw [lower]
      refine lift_bind_eq_ok.mpr ⟨_, ht, lift_bind_eq_ok.mpr ⟨_, hentry, ?_⟩⟩
      exact bind_eq_ok.mpr ⟨_, _, hargs.run, bind_eq_ok.mpr ⟨_, _, hreceiver.run, rfl⟩⟩
  | _, _, _, _, _, .staticDispatch hentry hargs hreceiver => by
      rw [lower]
      refine lift_bind_eq_ok.mpr ⟨_, hentry, ?_⟩
      exact bind_eq_ok.mpr ⟨_, _, hargs.run, bind_eq_ok.mpr ⟨_, _, hreceiver.run, rfl⟩⟩
  | _, _, _, _, _, .cond hwant hpred htrue hfalse => by
      rw [lower]
      refine lift_bind_eq_ok.mpr ⟨_, hwant, bind_eq_ok.mpr ⟨_, _, hpred.run, ?_⟩⟩
      exact bind_eq_ok.mpr ⟨_, _, htrue.run, bind_eq_ok.mpr ⟨_, _, hfalse.run, rfl⟩⟩
  | _, _, _, _, _, .loop hleave hnext hpred hbody => by
      subst hleave hnext
      rw [lower, freshLabel_bind, freshLabel_bind]
      exact bind_eq_ok.mpr ⟨_, _, hpred.run, bind_eq_ok.mpr ⟨_, _, hbody.run, rfl⟩⟩
  | _, _, _, _, _, .blockNil => by
      rw [lower]
      rfl
  | _, _, _, _, _, .block he hrest => by
      rw [lower]
      exact bind_eq_ok.mpr ⟨_, _, he.run, hrest.run⟩
  | _, _, _, _, _, .equality ht hleft hright => by
      rw [lower_equality]
      refine lift_bind_eq_ok.mpr ⟨_, ht, bind_eq_ok.mpr ⟨_, _, hleft.run, ?_⟩⟩
      exact bind_eq_ok.mpr ⟨_, _, hright.run, rfl⟩
  | _, _, _, _, _, .integer hop hleft hright => by
      rw [lower_integer hop]
      exact bind_eq_ok.mpr ⟨_, _, hleft.run, bind_eq_ok.mpr ⟨_, _, hright.run, rfl⟩⟩
  | _, _, _, _, _, .neg hoperand => by
      rw [lower]
      exact bind_eq_ok.mpr ⟨_, _, hoperand.run, rfl⟩
  | _, _, _, _, _, .comp hoperand => by
      rw [lower]
      exact bind_eq_ok.mpr ⟨_, _, hoperand.run, rfl⟩
  | _, _, _, _, _, .isvoid hoperand => by
      rw [lower]
      exact bind_eq_ok.mpr ⟨_, _, hoperand.run, rfl⟩
  | _, _, _, _, _, .letIn hdeclared hinit hvalue hname hbody => by
      have hlift := hbody.run
      subst hname
      rw [lower_let]
      refine lift_bind_eq_ok.mpr ⟨_, hdeclared, bind_eq_ok.mpr ⟨_, _, hinit.run, ?_⟩⟩
      rw [freshTemp_bind, liftedName_bind]
      exact lift_bind_eq_ok.mpr ⟨_, hvalue, bind_eq_ok.mpr ⟨_, _, hlift, rfl⟩⟩
  | _, _, _, _, _, .caseOf hscrutinee hvalue hname hps harms hback => by
      have htests := harms.run
      subst hname hback
      rw [lower]
      refine bind_eq_ok.mpr ⟨_, _, hscrutinee.run, ?_⟩
      rw [freshTemp_bind]
      refine lift_bind_eq_ok.mpr ⟨_, hvalue, ?_⟩
      rw [liftedName_bind]
      refine lift_bind_eq_ok.mpr ⟨_, hps, ?_⟩
      rw [armOrder_lowerBranches]
      exact bind_eq_ok.mpr ⟨_, _, htests, rfl⟩

theorem LowersRest.run : ∀ {site : Site} {before code : Code} {es : List Expr} {s s' : Progress},
    LowersRest site before es s code s' → lowerRest site before es s = .ok (code, s')
  | _, _, _, _, _, _, .nil => by
      rw [lowerRest]
      rfl
  | _, _, _, _, _, _, .cons he hrest => by
      rw [lowerRest]
      exact bind_eq_ok.mpr ⟨_, _, he.run, hrest.run⟩

theorem LowersArgs.run : ∀ {site : Site} {ps : List Parameter} {es : List Expr}
    {instrs : List Instr} {temps : List String} {s s' : Progress},
    LowersArgs site ps es s instrs temps s' → lowerArgs site ps es s = .ok ((instrs, temps), s')
  | _, _, _, _, _, _, _, .nil => by
      rw [lowerArgs]
      rfl
  | _, _, _, _, _, _, _, .cons he hrest => by
      rw [lowerArgs]
      refine bind_eq_ok.mpr ⟨_, _, he.run, ?_⟩
      rw [freshTemp_bind]
      exact bind_eq_ok.mpr ⟨_, _, hrest.run, rfl⟩

theorem LowersInitial.run : ∀ {site : Site} {type declared : Name} {init : Expr}
    {instrs : List Instr} {s s' : Progress},
    LowersInitial site type declared init s instrs s' →
    initial site type declared init s = .ok (instrs, s')
  | _, _, _, _, _, _, _, .default hinit hi => by
      rw [initial, if_pos hinit]
      exact map_eq_ok.mpr ⟨_, lift_eq_ok.mpr ⟨hi.run, rfl⟩, rfl⟩
  | _, _, _, _, _, _, _, .value hinit hcode => by
      rw [initial, if_neg (Bool.eq_false_iff.mp hinit)]
      exact map_eq_ok.mpr ⟨_, hcode.run, rfl⟩

theorem Lifts.run : ∀ {site : Site} {name : String} {x type value : Name} {body : Expr}
    {back : List (Name × ValType)} {s s' : Progress},
    Lifts site name x type value body s back s' →
    site.liftBinding name x type value
      ((site.bind x type).coerced value <$> lower (site.bind x type) body) s = .ok (back, s')
  | _, _, _, _, _, _, _, _, _, .mk hps hbody hback => by
      subst hback
      unfold Site.liftBinding
      refine lift_bind_eq_ok.mpr ⟨_, hps, bind_eq_ok.mpr ⟨_, _, inFrame_eq_ok.mpr ?_, rfl⟩⟩
      exact ⟨_, map_eq_ok.mpr ⟨_, hbody.run, rfl⟩, rfl, rfl⟩

theorem LowersArms.run : ∀ {site : Site} {name : String} {value : Name} {i : Nat}
    {bs : List Branch} {tests : List Instr} {assigned : List Name} {s s' : Progress},
    LowersArms site name value i bs s tests assigned s' →
    site.lowerArms name value matchedLabel i (bs.map (armOf site value)) s =
      .ok ((tests, assigned), s')
  | _, _, _, _, _, _, _, _, _, .nil => rfl
  | _, _, _, _, _, _, _, _, _, .cons hb hrest => by
      rw [List.map_cons, Site.lowerArms]
      exact bind_eq_ok.mpr ⟨_, _, hb.run, bind_eq_ok.mpr ⟨_, _, hrest.run, rfl⟩⟩

end

/-- Lowering an expression is deriving its code. -/
theorem lower_eq_ok_iff {site : Site} {e : Expr} {s s' : Progress} {code : Code} :
    lower site e s = .ok (code, s') ↔ Lowers site e s code s' :=
  ⟨Lowers.of_ok e, Lowers.run⟩

end Cool.Lowering
