import Cool.Proofs.Lowering.Derivation
import Cool.Proofs.Lowering.Names

/-! What lowering adds to the state: scratch locals with new numbers, and functions with new names.
What was there before stays as it was. -/

namespace Cool.Lowering

open Wat

/-! ## Frames -/

/-- The scratch locals of the given types, numbered from `i`. -/
def tempsFrom (i : Nat) (ts : List ValType) : List (String × ValType) :=
  (ts.zipIdx i).map fun p => (tempName p.2, p.1)

/-- The frame of a function later on: more scratch locals, and more variables assigned. -/
structure Frame.Grows (f g : Frame) : Prop where
  locals : ∃ ts : List ValType,
    g.temps = f.temps + ts.length ∧ g.locals = f.locals ++ tempsFrom f.temps ts
  assigned : ∀ x ∈ f.assigned, x ∈ g.assigned

namespace Frame.Grows

theorem refl (f : Frame) : f.Grows f :=
  ⟨⟨[], rfl, (List.append_nil _).symm⟩, fun _ hx => hx⟩

theorem trans {f g h : Frame} (hfg : f.Grows g) (hgh : g.Grows h) : f.Grows h := by
  obtain ⟨⟨ts, htemps, hlocals⟩, hassigned⟩ := hfg
  obtain ⟨⟨us, htemps', hlocals'⟩, hassigned'⟩ := hgh
  refine ⟨⟨ts ++ us, ?_, ?_⟩, fun x hx => hassigned' x (hassigned x hx)⟩
  · rw [htemps', htemps, List.length_append, Nat.add_assoc]
  · rw [hlocals', hlocals, htemps, List.append_assoc, tempsFrom, tempsFrom, tempsFrom,
      List.zipIdx_append, List.map_append]

theorem withTemp (s : Progress) (t : ValType) : s.frame.Grows (s.withTemp t).frame :=
  ⟨⟨[t], rfl, rfl⟩, fun _ hx => hx⟩

theorem withLabel (s : Progress) : s.frame.Grows s.withLabel.frame :=
  ⟨⟨[], rfl, (List.append_nil _).symm⟩, fun _ hx => hx⟩

theorem noting (s : Progress) (xs : List Name) : s.frame.Grows (s.noting xs).frame :=
  ⟨⟨[], rfl, (List.append_nil _).symm⟩, fun _ hx => List.mem_append_left _ hx⟩

theorem mem_locals {f g : Frame} (h : f.Grows g) {l : String × ValType} (hl : l ∈ f.locals) :
    l ∈ g.locals := by
  obtain ⟨ts, -, hlocals⟩ := h.locals
  rw [hlocals]
  exact List.mem_append_left _ hl

end Frame.Grows

/-! ## Functions -/

/-- The roles of the functions lifted from the branches of a case, from a branch on. -/
def branchRoles (k i count : Nat) : List Role :=
  (List.range' i count).map (.branch k)

theorem number?_branchRoles {k i count : Nat} {r : Role} (hr : r ∈ branchRoles k i count) :
    r.number? = some k := by
  obtain ⟨j, -, rfl⟩ := List.mem_map.mp hr
  rfl

theorem branchRoles_nodup (k i count : Nat) : (branchRoles k i count).Nodup :=
  List.Nodup.map (fun _ _ h => (Role.branch.inj h).2) List.nodup_range'

/-- The roles of all functions lifted from a case. -/
def caseRoles (k count : Nat) : List Role :=
  branchRoles k 0 count ++ [.select k]

theorem number?_caseRoles {k count : Nat} {r : Role} (hr : r ∈ caseRoles k count) :
    r.number? = some k := by
  rcases List.mem_append.mp hr with hr | hr
  · exact number?_branchRoles hr
  · rw [List.mem_singleton.mp hr]
    rfl

theorem caseRoles_nodup (k count : Nat) : (caseRoles k count).Nodup := by
  refine List.nodup_append'.mpr ⟨branchRoles_nodup k 0 count, List.nodup_singleton _, ?_⟩
  intro r hr hselect
  obtain ⟨j, -, rfl⟩ := List.mem_map.mp hr
  cases List.mem_singleton.mp hselect

/-- The functions of a class finished between two states: those with the roles `own`, and functions
lifted from expressions with the numbers given out in between. -/
structure FuncsGrow (cls : Name) (own : List Role) (s s' : Progress) : Prop where
  lifted_le : s.lifted ≤ s'.lifted
  funcs : ∃ (new : List Func) (lifted : List Role), s'.funcs = s.funcs ++ new ∧
    (new.map (·.name)).Perm ((own ++ lifted).map (Role.id cls)) ∧ lifted.Nodup ∧
    ∀ r ∈ lifted, ∃ i, r.number? = some i ∧ s.lifted ≤ i ∧ i < s'.lifted

namespace FuncsGrow

variable {cls : Name} {own own' : List Role} {s s₁ s₂ : Progress}

theorem of_eq (hlifted : s.lifted ≤ s₁.lifted) (hfuncs : s₁.funcs = s.funcs) :
    FuncsGrow cls [] s s₁ :=
  ⟨hlifted, [], [], by rw [hfuncs, List.append_nil], .nil, List.nodup_nil, by simp⟩

theorem refl (s : Progress) : FuncsGrow cls [] s s :=
  of_eq (Nat.le_refl _) rfl

theorem emitting {f : Func} {r : Role} (hname : f.name = r.id cls) :
    FuncsGrow cls [r] s (s.emitting f) :=
  ⟨Nat.le_refl _, [f], [], rfl, by simp [hname], List.nodup_nil, by simp⟩

theorem trans (h : FuncsGrow cls own s s₁) (h' : FuncsGrow cls own' s₁ s₂) :
    FuncsGrow cls (own ++ own') s s₂ := by
  obtain ⟨hle, new, lifted, hfuncs, hnames, hnodup, hnumbers⟩ := h
  obtain ⟨hle', new', lifted', hfuncs', hnames', hnodup', hnumbers'⟩ := h'
  refine ⟨Nat.le_trans hle hle', new ++ new', lifted ++ lifted', ?_, ?_, ?_, ?_⟩
  · rw [hfuncs', hfuncs, List.append_assoc]
  · rw [List.map_append]
    refine (hnames.append hnames').trans ?_
    rw [← List.map_append]
    refine List.Perm.map _ ?_
    simp only [List.append_assoc]
    exact List.Perm.append_left own (List.perm_append_comm_assoc _ _ _)
  · -- The numbers given out in the two parts do not overlap.
    refine List.nodup_append'.mpr ⟨hnodup, hnodup', fun r hr hr' => ?_⟩
    obtain ⟨i, hi, -, hlt⟩ := hnumbers r hr
    obtain ⟨j, hj, hge, -⟩ := hnumbers' r hr'
    rw [hi] at hj
    cases hj
    omega
  · intro r hr
    rcases List.mem_append.mp hr with hr | hr
    · obtain ⟨i, hi, hge, hlt⟩ := hnumbers r hr
      exact ⟨i, hi, hge, Nat.lt_of_lt_of_le hlt hle'⟩
    · obtain ⟨i, hi, hge, hlt⟩ := hnumbers' r hr
      exact ⟨i, hi, Nat.le_trans hle hge, hlt⟩

theorem inFrame {frame : Frame} (h : FuncsGrow cls own (s.inFrame frame) s₁) (outer : Frame) :
    FuncsGrow cls own s (s₁.inFrame outer) :=
  ⟨h.lifted_le, h.funcs⟩

/-- The functions of one expression have its number. -/
theorem absorb (h : FuncsGrow cls own s.counted s₁) (hnodup : own.Nodup)
    (hown : ∀ r ∈ own, r.number? = some s.lifted) : FuncsGrow cls [] s s₁ := by
  obtain ⟨hle, new, lifted, hfuncs, hnames, hlifted, hnumbers⟩ := h
  have hlt : s.lifted < s₁.lifted := hle
  refine ⟨Nat.le_of_lt hlt, new, own ++ lifted, hfuncs, hnames, ?_, fun r hr => ?_⟩
  · refine List.nodup_append'.mpr ⟨hnodup, hlifted, fun r hr hr' => ?_⟩
    obtain ⟨i, hi, hge, -⟩ := hnumbers r hr'
    rw [hown r hr] at hi
    cases hi
    exact Nat.not_succ_le_self _ hge
  · rcases List.mem_append.mp hr with hr | hr
    · exact ⟨s.lifted, hown r hr, Nat.le_refl _, hlt⟩
    · obtain ⟨i, hi, hge, hlt'⟩ := hnumbers r hr
      exact ⟨i, hi, Nat.le_of_succ_le hge, hlt'⟩

theorem mem_funcs (h : FuncsGrow cls own s s₁) {f : Func} (hf : f ∈ s.funcs) : f ∈ s₁.funcs := by
  obtain ⟨new, -, hfuncs, -⟩ := h.funcs
  rw [hfuncs]
  exact List.mem_append_left _ hf

end FuncsGrow

/-! ## Lowering -/

/-- Lowering at a site grows the frame and the functions. -/
structure Grown (site : Site) (s s' : Progress) : Prop where
  frame : s.frame.Grows s'.frame
  funcs : FuncsGrow site.current [] s s'

namespace Grown

variable {site : Site} {s s₁ s₂ : Progress}

theorem refl (s : Progress) : Grown site s s :=
  ⟨.refl _, .refl _⟩

theorem trans (h : Grown site s s₁) (h' : Grown site s₁ s₂) : Grown site s s₂ :=
  ⟨h.frame.trans h'.frame, h.funcs.trans h'.funcs⟩

theorem withTemp (s : Progress) (t : ValType) : Grown site s (s.withTemp t) :=
  ⟨.withTemp s t, .of_eq (Nat.le_refl _) rfl⟩

theorem withLabel (s : Progress) : Grown site s s.withLabel :=
  ⟨.withLabel s, .of_eq (Nat.le_refl _) rfl⟩

theorem noting (s : Progress) (xs : List Name) : Grown site s (s.noting xs) :=
  ⟨.noting s xs, .of_eq (Nat.le_refl _) rfl⟩

end Grown

mutual

theorem Lowers.grown : ∀ {site : Site} {e : Expr} {s s' : Progress} {code : Code},
    Lowers site e s code s' → Grown site s s'
  | _, _, _, _, _, .int _ _ => .refl _
  | _, _, _, _, _, .string _ => .refl _
  | _, _, _, _, _, .bool => .refl _
  | _, _, _, _, _, .object _ => .refl _
  | _, _, _, _, _, .assignLocal _ _ hvalue => hvalue.grown.trans (.noting _ _)
  | _, _, _, _, _, .assignField _ _ hvalue => hvalue.grown.trans (.withTemp _ _)
  | _, _, _, _, _, .new => .refl _
  | _, _, _, _, _, .dispatch _ _ hargs hreceiver => hargs.grown.trans hreceiver.grown
  | _, _, _, _, _, .staticDispatch _ hargs hreceiver => hargs.grown.trans hreceiver.grown
  | _, _, _, _, _, .cond _ hpred htrue hfalse =>
      hpred.grown.trans (htrue.grown.trans hfalse.grown)
  | _, _, _, _, _, .loop _ _ hpred hbody =>
      (Grown.withLabel _).trans ((Grown.withLabel _).trans (hpred.grown.trans hbody.grown))
  | _, _, _, _, _, .blockNil => .refl _
  | _, _, _, _, _, .block he hrest => he.grown.trans hrest.grown
  | _, _, _, _, _, .equality _ hleft hright => hleft.grown.trans hright.grown
  | _, _, _, _, _, .integer _ hleft hright => hleft.grown.trans hright.grown
  | _, _, _, _, _, .neg hoperand => hoperand.grown
  | _, _, _, _, _, .comp hoperand => hoperand.grown
  | _, _, _, _, _, .isvoid hoperand => hoperand.grown
  | _, _, _, _, _, @Lowers.letIn site _ x type _ body declared _ value name back _ s₁ s₂
      _ hinit _ hname hbody => by
      refine hinit.grown.trans ((Grown.withTemp s₁ (valueType declared)).trans ?_)
      have hrole : name = Role.id site.current (.binding s₁.lifted) := hname
      obtain ⟨hframe, hfuncs⟩ := hbody.grown hrole
      refine Grown.trans ⟨hframe ▸ .refl _, ?_⟩ (.noting _ _)
      exact hfuncs.absorb (List.nodup_singleton _) fun r hr => List.mem_singleton.mp hr ▸ rfl
  | _, _, _, _, _, @Lowers.caseOf site _ _ branches _ value name ps back tests assigned _ s₁ s₂
      hscrutinee _ hname _ harms _ => by
      refine hscrutinee.grown.trans ((Grown.withTemp s₁ (valueType .object)).trans ?_)
      obtain ⟨hframe, hfuncs⟩ := harms.grown hname
      have hselect : FuncsGrow site.current [.select s₁.lifted] s₂
          (s₂.emitting (selectFunc site name value ps back tests)) := .emitting hname
      refine Grown.trans ⟨hframe ▸ .refl _, ?_⟩ (.noting _ _)
      exact (hfuncs.trans hselect).absorb (caseRoles_nodup _ _) fun _ => number?_caseRoles

theorem LowersRest.grown : ∀ {site : Site} {before code : Code} {es : List Expr}
    {s s' : Progress}, LowersRest site before es s code s' → Grown site s s'
  | _, _, _, _, _, _, .nil => .refl _
  | _, _, _, _, _, _, .cons he hrest => he.grown.trans hrest.grown

theorem LowersArgs.grown : ∀ {site : Site} {ps : List Parameter} {es : List Expr}
    {instrs : List Instr} {temps : List String} {s s' : Progress},
    LowersArgs site ps es s instrs temps s' → Grown site s s'
  | _, _, _, _, _, _, _, .nil => .refl _
  | _, _, _, _, _, _, _, .cons he hrest =>
      he.grown.trans ((Grown.withTemp _ _).trans hrest.grown)

theorem LowersInitial.grown : ∀ {site : Site} {type declared : Name} {init : Expr}
    {instrs : List Instr} {s s' : Progress},
    LowersInitial site type declared init s instrs s' → Grown site s s'
  | _, _, _, _, _, _, _, .default _ _ => .refl _
  | _, _, _, _, _, _, _, .value _ hcode => hcode.grown

theorem Lifts.grown : ∀ {site : Site} {name : String} {x type value : Name} {body : Expr}
    {back : List (Name × ValType)} {s s' : Progress} {r : Role},
    Lifts site name x type value body s back s' → name = r.id site.current →
    s'.frame = s.frame ∧ FuncsGrow site.current [r] s s'
  | _, _, _, _, _, _, _, s, _, _, .mk _ hbody _, hname =>
      ⟨rfl, (hbody.grown.funcs.inFrame s.frame).trans (.emitting hname)⟩

theorem LowersArms.grown : ∀ {site : Site} {name : String} {value : Name} {i : Nat}
    {bs : List Branch} {tests : List Instr} {assigned : List Name} {s s' : Progress} {k : Nat},
    LowersArms site name value i bs s tests assigned s' →
    name = liftedId site.current "case" k →
    s'.frame = s.frame ∧ FuncsGrow site.current (branchRoles k i bs.length) s s'
  | _, _, _, _, _, _, _, _, _, _, .nil, _ => ⟨rfl, .refl _⟩
  | _, _, _, i, _, _, _, _, _, _, .cons hb hrest, hname => by
      obtain ⟨hframe, hfuncs⟩ := hb.grown (Role.branchId_eq hname i)
      obtain ⟨hframe', hfuncs'⟩ := hrest.grown hname
      exact ⟨hframe'.trans hframe, hfuncs.trans hfuncs'⟩

end

end Cool.Lowering
