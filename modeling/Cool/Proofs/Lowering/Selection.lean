import Cool.Proofs.Hierarchy.Order
import Cool.Proofs.Lowering.Generated
import Cool.Proofs.Wat.Exceptions
import Mathlib.Data.List.Sort

/-! A case picks the closest guard. The branches are tested from the deepest guard to the
shallowest, and the guards above one class lie on one chain, so the first that matches is below all
others. -/

namespace Cool

theorem Hierarchy.Inherits.eq_of_depth_le {h : Hierarchy} (hr : h.Rooted) {c d : Name}
    (hcd : h.Inherits c d) (hdepth : h.depth c ≤ h.depth d) : c = d := by
  rcases hcd.cases_parent with heq | ⟨p, hp, hpd⟩
  · exact heq
  · have hstep := Hierarchy.depth_parent hr hp
    have hle := Hierarchy.Inherits.depth_le hr hpd
    omega

/-- An heir conforms wherever it stands. -/
theorem Hierarchy.conforms_of_inherits {h : Hierarchy} (hr : h.Rooted) {c d : Name}
    (hc : c ∈ h.names) (hcd : h.Inherits c d) (current : Name) : h.conforms c d current = true := by
  have hchild : c ≠ .selfType := fun heq => hr.selfType_not_mem (heq ▸ hc)
  have hparent : d ≠ .selfType := fun heq => hr.selfType_not_mem (heq ▸ hcd.mem_names hr hc)
  rw [conforms, if_neg hparent, if_neg hchild, (isBelow_iff hr).mpr hcd]
  exact ite_self _

namespace Lowering

open Wat

/-! ## The order of the branches -/

/-- The order in which the branches of a case are tested. -/
def caseOrder (h : Hierarchy) (branches : List Branch) : List Branch :=
  deepestFirst (fun b => h.depth b.type) branches

theorem insertByDepth_eq {α : Type} (depth : α → Nat) (a : α) (as : List α) :
    insertByDepth depth a as = as.orderedInsert (fun a b => depth b ≤ depth a) a := by
  induction as with
  | nil => rfl
  | cons b as ih => rw [insertByDepth, List.orderedInsert_cons, ih]

theorem deepestFirst_eq {α : Type} (depth : α → Nat) (as : List α) :
    deepestFirst depth as = as.insertionSort (fun a b => depth b ≤ depth a) := by
  induction as with
  | nil => rfl
  | cons a as ih => rw [deepestFirst, List.insertionSort_cons, ih, insertByDepth_eq]

theorem deepestFirst_perm {α : Type} (depth : α → Nat) (as : List α) :
    (deepestFirst depth as).Perm as :=
  deepestFirst_eq depth as ▸ List.perm_insertionSort _ as

theorem deepestFirst_pairwise {α : Type} (depth : α → Nat) (as : List α) :
    (deepestFirst depth as).Pairwise fun a b => depth b ≤ depth a := by
  have : Std.Total fun a b : α => depth b ≤ depth a := ⟨fun a b => Nat.le_total _ _⟩
  have : IsTrans α fun a b => depth b ≤ depth a := ⟨fun a b c hab hbc => Nat.le_trans hbc hab⟩
  exact deepestFirst_eq depth as ▸ List.pairwise_insertionSort _ as

section

variable {h : Hierarchy} (hrooted : h.Rooted) {r : Name} {branches : List Branch}

include hrooted

/-- The first branch that matches: those above a class lie on one chain, and the ones tested later
are no deeper. -/
theorem caseOrder_first {before after : List Branch} {b : Branch}
    (hsplit : caseOrder h branches = before ++ b :: after)
    (hbefore : ∀ c ∈ before, ¬ h.Inherits r c.type) (hb : h.Inherits r b.type) :
    ∀ c ∈ branches, h.Inherits r c.type → h.Inherits b.type c.type := by
  intro c hc hrc
  have hmem : c ∈ before ++ b :: after := hsplit ▸ mem_deepestFirst.mpr hc
  rcases List.mem_append.mp hmem with hmem | hmem
  · exact absurd hrc (hbefore c hmem)
  rcases List.mem_cons.mp hmem with rfl | hmem
  · exact .refl _
  rcases hb.total hrc with hbc | hcb
  · exact hbc
  have hsorted : (before ++ b :: after).Pairwise fun a b => h.depth b.type ≤ h.depth a.type :=
    hsplit ▸ deepestFirst_pairwise _ branches
  have hdepth := List.rel_of_pairwise_cons (List.pairwise_append.mp hsorted).2.1 hmem
  rw [Hierarchy.Inherits.eq_of_depth_le hrooted hcb hdepth]
  exact .refl _

theorem exists_caseOrder_first (hmatch : ∃ b ∈ branches, h.Inherits r b.type) :
    ∃ before b after, caseOrder h branches = before ++ b :: after ∧
      (∀ c ∈ before, ¬ h.Inherits r c.type) ∧ h.Inherits r b.type := by
  obtain ⟨b, hb, hrb⟩ := hmatch
  have hsome : ((caseOrder h branches).find? fun c => h.isBelow r c.type).isSome :=
    List.find?_isSome.mpr ⟨b, mem_deepestFirst.mpr hb, (Hierarchy.isBelow_iff hrooted).mpr hrb⟩
  obtain ⟨c, hc⟩ := Option.isSome_iff_exists.mp hsome
  obtain ⟨hrc, before, after, hsplit, hbefore⟩ := List.find?_eq_some_iff_append.mp hc
  refine ⟨before, c, after, hsplit, fun d hd hrd => ?_, (Hierarchy.isBelow_iff hrooted).mp hrc⟩
  have hnot := hbefore d hd
  rw [(Hierarchy.isBelow_iff hrooted).mpr hrd] at hnot
  cases hnot

end

/-! ## Class types -/

/-- A module in which every class of a hierarchy has an object type of its own below that of its
parent, and exceptions carry a number. -/
structure Hosts (m : Module) (h : Hierarchy) : Prop where
  types_nodup : (m.types.map (·.name)).Nodup
  object : ∀ c ∈ h.names, ∃ fields,
    .struct (classType c) ((h.parent? c).map classType) fields ∈ m.types
  apart : ∀ c ∈ h.names, ∀ d ∈ h.names, classType c = classType d → c = d
  tag : m.tag? abortTag = some [.i32]

/-- The modules of programs whose names are identifiers are such modules. -/
theorem hosts_moduleOf {ms : Members} (hco : ms.Coherent) (hnamed : Named ms) (pool : Pool)
    (funcs : List Func) : Hosts (moduleOf ms pool funcs) ms.hierarchy where
  types_nodup := types_nodup hco hnamed pool funcs
  object c hc := ⟨objectFields c (ms.attributes c c),
    mem_types hco.rooted hc (by simp [classTypes])⟩
  apart c hc d hd heq := by
    have hid := fun {c} hc => isIdentifier_of_isClassName (hnamed.classes c hc)
    refine classChars_inj (hid hc) (hid hd) ?_
    have hchars := congrArg String.toList heq
    simpa [classType, classChars] using hchars
  tag := rfl

section

variable {m : Module} {h : Hierarchy} (hrooted : h.Rooted) (hosts : Hosts m h)

include hrooted hosts

/-- The types that an object type extends are those of the classes above. -/
theorem Hosts.exists_of_extends {c : Name} (hc : c ∈ h.names) {u : String}
    (hu : m.Extends (classType c) u) : ∃ d, h.Inherits c d ∧ u = classType d := by
  induction hu with
  | refl => exact ⟨c, .refl c, rfl⟩
  | tail _ hsub ih =>
      obtain ⟨d, hcd, rfl⟩ := ih
      obtain ⟨vs, hdeclared⟩ := hsub
      obtain ⟨fields, hobject⟩ := hosts.object d (hcd.mem_names hrooted hc)
      have heq := List.inj_on_of_nodup_map hosts.types_nodup hdeclared hobject rfl
      obtain ⟨-, hparent, -⟩ := TypeDef.struct.inj heq
      obtain ⟨q, hq, rfl⟩ := Option.map_eq_some_iff.mp hparent.symm
      exact ⟨q, hcd.tail hq, rfl⟩

theorem Hosts.extends_iff {c d : Name} (hc : c ∈ h.names) (hd : d ∈ h.names) :
    m.Extends (classType c) (classType d) ↔ h.Inherits c d := by
  constructor
  · intro hextends
    obtain ⟨e, hce, heq⟩ := hosts.exists_of_extends hrooted hc hextends
    rwa [hosts.apart d hd e (hce.mem_names hrooted hc) heq]
  · intro hcd
    refine Relation.ReflTransGen.lift classType (fun a q hq => ?_) _ _ hcd
    obtain ⟨fields, hobject⟩ := hosts.object a (Hierarchy.mem_names_of_parent? hq)
    rw [hq] at hobject
    exact ⟨fields, hobject⟩

/-- Whether an object of a class passes the test for another. -/
theorem Hosts.passes_iff {st : Store} {a : Nat} {fields : List Val} {c d : Name}
    (ha : st.heap[a]? = some (.struct (classType c) fields)) (hc : c ∈ h.names)
    (hd : d ∈ h.names) : m.Passes st (.ref a) (objectType d) ↔ h.Inherits c d := by
  rw [← hosts.extends_iff hrooted hc hd]
  constructor
  · rintro ⟨u, vs, hu, hextends⟩
    cases ha.symm.trans hu
    exact hextends
  · exact fun hextends => ⟨_, _, ha, hextends⟩

end

/-! ## The function of a case -/

/-- The call of the function of a branch. -/
def armCall (site : Site) (b : Branch) (branch : String) (back : List (Name × ValType)) :
    List Instr :=
  site.liftedArgs b.name b.type (.plain (.refCast (objectType b.type)) [getLocal scrutineeLocal]) ++
    callLifted branch back

/-- The function of a branch, with the code of its body. -/
def IsBranchFunc (site : Site) (value : Name) (b : Branch) (back : List (Name × ValType))
    (f : Func) : Prop :=
  ∃ s code s', Lowers (site.bind b.name b.type) b.body s code s' ∧
    f.body = (site.bind b.name b.type).coerced value code ++
      back.map fun q => getLocal (localId q.1)

/-- Whether the scrutinee is an object of a class. -/
def Scrutinizes (μ : Memory) (r : Name) : Prop :=
  ∃ a fields, μ.locals scrutineeLocal = some (.ref a) ∧
    μ.store.heap[a]? = some (.struct (classType r) fields)

section

variable {site : Site} {name : String} {value : Name} {i : Nat} {bs : List Branch}
variable {s s' : Progress} {tests : List Instr} {assigned : List Name}

/-- Every branch has its function and its test, which stands behind those of the branches before. -/
theorem LowersArms.exists_arm {k : Nat} (hname : name = liftedId site.current "case" k)
    {before after : List Branch} {b : Branch}
    (harms : LowersArms site name value i (before ++ b :: after) s tests assigned s') :
    ∃ g ∈ s'.funcs, ∃ back earlier later passed s₁, IsBranchFunc site value b back g ∧
      tests = earlier ++ armTest site matchedLabel g.name b back :: later ∧
      LowersArms site name value i before s earlier passed s₁ := by
  induction before generalizing i s tests assigned with
  | nil =>
      cases harms with
      | cons hb hrest =>
          obtain ⟨-, hkept⟩ := hrest.grown hname
          cases hb with
          | mk hps hbody hback =>
              exact ⟨_, hkept.mem_funcs (Progress.mem_emitting _ _), _, [], _, [], _,
                ⟨_, _, _, hbody, rfl⟩, rfl, .nil⟩
  | cons c before ih =>
      cases harms with
      | cons hc hrest =>
          obtain ⟨g, hg, back, earlier, later, passed, s₁, hbranch, htests, hbefore⟩ := ih hrest
          exact ⟨g, hg, back, _, later, _, s₁, hbranch, by rw [htests]; rfl, .cons hc hbefore⟩

variable {w : Module} {h : Hierarchy} (hrooted : h.Rooted) (hosts : Hosts w h) {r : Name}
variable (hr : r ∈ h.names) {μ : Memory} (hμ : Scrutinizes μ r)
variable {after : List Instr} {rest : List Val}

include hrooted hosts hr hμ

/-- Branches that do not match are passed over. -/
theorem LowersArms.passes_over (harms : LowersArms site name value i bs s tests assigned s')
    (hbs : ∀ b ∈ bs, b.type ∈ h.names) (hnone : ∀ b ∈ bs, ¬ h.Inherits r b.type) {e : Ending}
    (hafter : FinishesAll w after ⟨μ, rest⟩ e) : FinishesAll w (tests ++ after) ⟨μ, rest⟩ e := by
  induction bs generalizing i s tests assigned with
  | nil =>
      cases harms
      exact hafter
  | cons b bs ih =>
      cases harms with
      | cons _ hrest =>
          rw [List.forall_mem_cons] at hbs hnone
          obtain ⟨a, fields, hlocal, hheap⟩ := hμ
          have hfails := mt (hosts.passes_iff hrooted hheap hr hbs.1).mp hnone.1
          exact .cons (.skipped hlocal hfails) (ih hrest hbs.2 hnone.2)

/-- A branch that matches runs the call of its function. -/
theorem finishes_armTest {b : Branch} (hb : b.type ∈ h.names) (hmatch : h.Inherits r b.type)
    {branch : String} {back : List (Name × ValType)} {e : Ending}
    (hcall : FinishesAll w (armCall site b branch back ++ [.plain (.br matchedLabel) []]) ⟨μ, []⟩ e)
    (he : ∀ c, e ≠ .next c) :
    FinishesAll w (armTest site matchedLabel branch b back :: after) ⟨μ, rest⟩ e := by
  obtain ⟨a, fields, hlocal, hheap⟩ := hμ
  have hpasses := (hosts.passes_iff hrooted hheap hr hb).mpr hmatch
  have htaken : Finishes w (armTest site matchedLabel branch b back) ⟨μ, rest⟩ (e.onto rest) :=
    .taken hlocal hpasses hcall
  rw [Ending.onto_of_stops he] at htaken
  exact .stop htaken he

end

/-- What the function of a case does with an object of a class. If no guard is above the class, it
throws. Otherwise it ends as the call of the closest branch does, and hands on what that leaves. -/
structure SelectsClosest (h : Hierarchy) (site : Site) (branches : List Branch) (r : Name)
    (funcs : List Func) (f : Func) : Prop where
  throws : (∀ b ∈ branches, ¬ h.Inherits r b.type) → ∀ w μ, Hosts w h → Scrutinizes μ r → ∀ e,
    FinishesAll w f.body ⟨μ, []⟩ e ↔ e = .thrown abortTag [.i32 abortNoBranch]
  calls : ∀ b ∈ branches, h.Inherits r b.type →
    (∀ c ∈ branches, h.Inherits r c.type → h.Inherits b.type c.type) →
    ∃ g ∈ funcs, ∃ value back, ∃ given : List String, IsBranchFunc site value b back g ∧
      ∀ w μ, Hosts w h → Scrutinizes μ r →
        (∀ tag values,
          FinishesAll w (armCall site b g.name back) ⟨μ, []⟩ (.thrown tag values) →
          FinishesAll w f.body ⟨μ, []⟩ (.thrown tag values)) ∧
        ∀ ν v e, FinishesAll w (armCall site b g.name back) ⟨μ, []⟩ (.next ⟨ν, [v]⟩) →
          FinishesAll w (given.map getLocal) ⟨ν, [v]⟩ e → FinishesAll w f.body ⟨μ, []⟩ e

section

variable {h : Hierarchy} (hrooted : h.Rooted) {branches : List Branch}
variable (hinstalled : ∀ b ∈ branches, b.type ∈ h.names)
variable {site : Site} {name : String} {value : Name} {ps back : List (Name × ValType)}
variable {tests : List Instr} {assigned : List Name} {s s' : Progress}
variable (harms : LowersArms site name value 0 (caseOrder h branches) s tests assigned s')

include hrooted hinstalled harms

/-- Where no branch matches, the function throws. -/
theorem selectFunc_throws {w : Module} (hosts : Hosts w h) {r : Name} (hr : r ∈ h.names)
    {μ : Memory} (hμ : Scrutinizes μ r) (hnone : ∀ b ∈ branches, ¬ h.Inherits r b.type)
    (ps back : List (Name × ValType)) :
    FinishesAll w (selectFunc site name value ps back tests).body ⟨μ, []⟩
      (.thrown abortTag [.i32 abortNoBranch]) := by
  have hmem : ∀ b ∈ caseOrder h branches, b ∈ branches := fun b => mem_deepestFirst.mp
  have hthrow : FinishesAll w [.plain (.throw abortTag) [const abortNoBranch]] ⟨μ, []⟩
      (.thrown abortTag [.i32 abortNoBranch]) :=
    .stop (.throwConst hosts.tag _) Ending.thrown_ne_next
  have hcascade := harms.passes_over hrooted hosts hr hμ (fun b hb => hinstalled b (hmem b hb))
    (fun b hb => hnone b (hmem b hb)) hthrow
  exact .stop (.block hcascade) Ending.thrown_ne_next

/-- The closest branch is the first to match, so its function is called. -/
theorem selectFunc_calls (hdistinct : (branches.map (·.type)).Nodup) {k : Nat}
    (hname : name = liftedId site.current "case" k) {r : Name} (hr : r ∈ h.names) {b : Branch}
    (hb : b ∈ branches) (hrb : h.Inherits r b.type)
    (hclosest : ∀ c ∈ branches, h.Inherits r c.type → h.Inherits b.type c.type) :
    ∃ g ∈ s'.funcs, ∃ handed, IsBranchFunc site value b handed g ∧
      ∀ w μ, Hosts w h → Scrutinizes μ r → ∀ e, (∀ c, e ≠ .next c) →
        FinishesAll w (armCall site b g.name handed ++ [.plain (.br matchedLabel) []]) ⟨μ, []⟩ e →
        ∀ after, FinishesAll w (tests ++ after) ⟨μ, []⟩ e := by
  obtain ⟨before, c, later, hsplit, hbefore, hrc⟩ := exists_caseOrder_first hrooted ⟨b, hb, hrb⟩
  have hmem : ∀ d ∈ before ++ c :: later, d ∈ branches := hsplit ▸ fun d => mem_deepestFirst.mp
  have hc : c ∈ branches := hmem c (List.mem_append_right _ List.mem_cons_self)
  -- there is one closest branch, because the guards are distinct
  have hsame : b = c := by
    refine List.inj_on_of_nodup_map hdistinct hb hc ?_
    exact (hclosest c hc hrc).antisymm hrooted
      (caseOrder_first hrooted hsplit hbefore hrc b hb hrb)
  subst hsame
  rw [hsplit] at harms
  obtain ⟨g, hg, handed, earlier, tail, passed, s₁, hbranch, htests, hpassed⟩ :=
    harms.exists_arm hname
  refine ⟨g, hg, handed, hbranch, fun w μ hosts hμ e he hcall after => ?_⟩
  rw [htests, List.append_assoc]
  exact hpassed.passes_over hrooted hosts hr hμ
    (fun d hd => hinstalled d (hmem d (List.mem_append_left _ hd))) hbefore
    (finishes_armTest hrooted hosts hr hμ (hinstalled b hb) hrb hcall he)

theorem selectFunc_selects (hdistinct : (branches.map (·.type)).Nodup) {k : Nat}
    (hname : name = liftedId site.current "case" k) (ps back : List (Name × ValType)) {r : Name}
    (hr : r ∈ h.names) :
    SelectsClosest h site branches r s'.funcs (selectFunc site name value ps back tests) where
  throws hnone w μ hosts hμ e := by
    have hthrown := selectFunc_throws hrooted hinstalled harms hosts hr hμ hnone ps back
    exact ⟨fun he => he.unique hthrown, fun he => he ▸ hthrown⟩
  calls b hb hrb hclosest := by
    obtain ⟨g, hg, handed, hbranch, hcalls⟩ :=
      selectFunc_calls hrooted hinstalled harms hdistinct hname hr hb hrb hclosest
    refine ⟨g, hg, value, handed, back.map fun q => localId q.1, hbranch, fun w μ hosts hμ => ?_⟩
    refine ⟨fun tag values hcall => ?_, fun ν v e hcall hgiven => ?_⟩
    · have hthrown := hcalls w μ hosts hμ _ Ending.thrown_ne_next
        (hcall.append_of_stops Ending.thrown_ne_next _)
      exact .stop (.block (hthrown _)) Ending.thrown_ne_next
    · have hleft := hcalls w μ hosts hμ _ Ending.branch_ne_next
        (hcall.append (.stop (finishes_br matchedLabel _) Ending.branch_ne_next))
      rw [List.map_map] at hgiven
      exact .cons (.left (hleft _) rfl) hgiven

end

/-- A case picks the closest guard. The branches are tested in an order of which each class above a
guard finds the closest one first, and the function of the case, run on an object of a class, calls
the function of the closest branch, or throws if no guard is above the class. -/
theorem case_picks_closest {p : Program} (hv : (Hierarchy.build p).1.valid = true)
    {branches : List Branch} (hinstalled : ∀ b ∈ branches, b.type ∈ (Hierarchy.build p).1.names)
    (hdistinct : (branches.map (·.type)).Nodup) :
    let h := (Hierarchy.build p).1
    let order := caseOrder h branches
    order.Perm branches ∧
    (∀ r ∈ h.names, (∃ b ∈ branches, h.Inherits r b.type) →
      ∃ before b after, order = before ++ b :: after ∧
        (∀ c ∈ before, ¬ h.Inherits r c.type) ∧ h.Inherits r b.type ∧
        ∀ c ∈ branches, h.Inherits r c.type → ∀ current, h.conforms b.type c.type current = true) ∧
    ∀ site : Site, site.members.hierarchy = h →
      (∀ value, armOrder h (lowerBranches site value branches) = order.map (armOf site value)) ∧
      ∀ m scrutinee s code s', lower site (.caseOf m scrutinee branches) s = .ok (code, s') →
        ∃ f ∈ s'.funcs, (∃ args back, code.instrs = args ++ callLifted f.name back) ∧
          ∀ r ∈ h.names, SelectsClosest h site branches r s'.funcs f := by
  intro h order
  have hrooted := Hierarchy.rooted_of_valid hv
  refine ⟨deepestFirst_perm _ _, fun r hr hmatch => ?_, fun site hsite => ⟨fun value => ?_, ?_⟩⟩
  · obtain ⟨before, b, after, hsplit, hbefore, hrb⟩ := exists_caseOrder_first hrooted hmatch
    refine ⟨before, b, after, hsplit, hbefore, hrb, fun c hc hrc current => ?_⟩
    have hb : b ∈ branches :=
      mem_deepestFirst.mp (hsplit ▸ List.mem_append_right _ List.mem_cons_self)
    exact Hierarchy.conforms_of_inherits hrooted (hinstalled b hb)
      (caseOrder_first hrooted hsplit hbefore hrb c hc hrc) current
  · exact armOrder_lowerBranches ..
  · intro m scrutinee s code s' hlower
    cases Lowers.of_ok _ hlower with
    | caseOf _ _ hname _ harms _ =>
        rw [hsite] at harms
        refine ⟨_, Progress.mem_emitting _ _, ⟨_, _, rfl⟩, fun r hr => ?_⟩
        obtain ⟨hthrows, hcalls⟩ :=
          selectFunc_selects hrooted hinstalled harms hdistinct hname _ _ hr
        refine ⟨hthrows, fun b hb hrb hclosest => ?_⟩
        obtain ⟨g, hg, hcall⟩ := hcalls b hb hrb hclosest
        exact ⟨g, List.mem_append_left _ hg, hcall⟩

section

open Hierarchy (build descending)

/-- The branches of a case on `x : A`, which gives the object, and on `x : C`, which gives void. -/
def twoGuards : List Branch :=
  let m : Mark := ⟨⟨"chain.cl", 1⟩, .object⟩
  [.mk m.span (.named "x") (.named "A") (.object m (.named "x")),
    .mk m.span (.named "x") (.named "C") (.block m [])]

def guardSite : Site :=
  ⟨{ hierarchy := (build descending).1 }, { table := {} }, .named "A", {}⟩

/-- A module with nothing but the object types of the classes and some functions. -/
def guardModule (funcs : List Func) : Module where
  imports := [.tag "abort" abortTag [.i32]]
  types := (build descending).1.names.map fun c =>
    .struct (classType c) (((build descending).1.parent? c).map classType) []
  globals := []
  funcs := funcs

theorem hosts_guardModule (funcs : List Func) : Hosts (guardModule funcs) (build descending).1 :=
  ⟨(by decide : ((guardModule []).types.map (·.name)).Nodup),
    fun c hc => ⟨[], List.mem_map_of_mem hc⟩, by decide, rfl⟩

/-- Memory in which every local is an object of a class. -/
def memoryOf (c : Name) : Memory :=
  ⟨⟨fun _ => none, [.struct (classType c) []]⟩, fun _ => some (.ref 0)⟩

/-- The function of one of the branches. -/
def guardFunc (name : String) (guard : Name) (i : Instr) : Func :=
  liftedFunc name
    [(selfLocal, valueType (.named "A")), (localId (.named "x"), valueType guard)]
    (valueType .object) [] [] [i]

/-- Calling the function of a branch on an object below its guard leaves what the branch does. -/
theorem finishes_guardFunc {funcs : List Func} {name : String} {b : Branch} {i : Instr} {v : Val}
    {c : Name} (hdefined : (guardModule funcs).definitions name = [guardFunc name b.type i])
    (hx : b.name = .named "x") (hc : c ∈ (build descending).1.names)
    (hb : b.type ∈ (build descending).1.names) (hbelow : (build descending).1.Inherits c b.type)
    (hvalue : ∀ locals, locals (localId (.named "x")) = some (.ref 0) →
      Finishes (guardModule funcs) i ⟨⟨(memoryOf c).store, locals⟩, []⟩
        (.next ⟨⟨(memoryOf c).store, locals⟩, [v]⟩)) :
    FinishesAll (guardModule funcs) (armCall guardSite b name []) ⟨memoryOf c, []⟩
      (.next ⟨memoryOf c, [v]⟩) := by
  have hrooted : (build descending).1.Rooted := Hierarchy.rooted_of_valid (by decide)
  have hobject : (memoryOf c).store.heap[0]? = some (.struct (classType c) []) := rfl
  have hpasses := ((hosts_guardModule funcs).passes_iff hrooted hobject hc hb).mpr hbelow
  have hargs : armCall guardSite b name [] =
      [getLocal selfLocal, .plain (.refCast (objectType b.type)) [getLocal scrutineeLocal],
        .plain (.call name) []] := by
    rw [armCall, Site.liftedArgs, hx]
    rfl
  have hget : ∀ (x : String) (stack : List Val), Finishes (guardModule funcs) (getLocal x)
      ⟨memoryOf c, stack⟩ (.next ⟨memoryOf c, .ref 0 :: stack⟩) :=
    fun x stack => .plain .nil (.run rfl)
  have hbody : FinishesAll (guardModule funcs) (guardFunc name b.type i).body
      ⟨⟨(memoryOf c).store, (guardFunc name b.type i).entry [.ref 0, .ref 0]⟩, []⟩
      (.next ⟨_, [v]⟩) := .cons (hvalue _ rfl) .nil
  rw [hargs]
  exact .cons (hget _ _) (.cons (.plain (.cons (hget _ _) .nil) (.cast hpasses))
    (.cons (.plain .nil (.returned hdefined rfl rfl hbody rfl)) .nil))

theorem Site.Reads.instrs_of_local {site : Site} {x t : Name} {code : Code}
    (h : site.Reads x code) (hself : x ≠ .self)
    (hlocal : site.scope.lookup x = some ⟨.local, t⟩) :
    code.instrs = [getLocal (localId x)] := by
  cases h with
  | self => exact absurd rfl hself
  | field _ hfield _ => cases hlocal.symm.trans hfield
  | «local» => rfl

theorem finishes_gets (funcs : List Func) (c : Name) (xs : List String) (stack : List Val) :
    ∃ kept, FinishesAll (guardModule funcs) (xs.map getLocal) ⟨memoryOf c, stack⟩
      (.next ⟨memoryOf c, kept ++ stack⟩) := by
  induction xs generalizing stack with
  | nil => exact ⟨[], .nil⟩
  | cons x xs ih =>
      obtain ⟨kept, hkept⟩ := ih (.ref 0 :: stack)
      refine ⟨kept ++ [.ref 0], .cons (.plain .nil (.run rfl)) ?_⟩
      rwa [List.append_assoc]

/-- What the branch on `C` does: it gives void. -/
def giveVoid : Instr :=
  .plain (.refNull (classType .object)) []

/-- What the branch on `A` does: it gives the object. -/
def giveObject : Instr :=
  getLocal (localId (.named "x"))

def onC : Func :=
  guardFunc "$A.case.0.branch.0" (.named "C") giveVoid

def onA : Func :=
  guardFunc "$A.case.0.branch.1" (.named "A") giveObject

/-- The case becomes the functions of its two branches and the one that selects between them. What
its body starts with tells each of them from the others. -/
theorem lower_twoGuards (span : Span) :
    let m : Mark := ⟨span, .object⟩
    ∃ code s', lower guardSite (.caseOf m (.object m .self) twoGuards) {} = .ok (code, s') ∧
      (guardModule s'.funcs).definitions onC.name = [onC] ∧
      (guardModule s'.funcs).definitions onA.name = [onA] ∧
      ∀ g ∈ s'.funcs, ∀ {i : Instr} {rest : List Instr} {back : List (Name × ValType)},
        g.body = i :: (rest ++ back.map fun q => getLocal (localId q.1)) →
        (i = giveVoid → g = onC ∧ back = []) ∧ (i = giveObject → g = onA ∧ back = []) := by
  intro m
  obtain ⟨code, s', select, l, results, body, hlower, hfuncs, hselect, hC, hA⟩ :
      ∃ code s' select l results body,
        lower guardSite (.caseOf m (.object m .self) twoGuards) {} = .ok (code, s') ∧
        s'.funcs = [onC, onA, select] ∧ select.body = [.block l results body] ∧
        (guardModule s'.funcs).definitions onC.name = [onC] ∧
        (guardModule s'.funcs).definitions onA.name = [onA] :=
    ⟨_, _, _, _, _, _, rfl, rfl, rfl, rfl, rfl⟩
  refine ⟨code, s', hlower, hC, hA, fun g hg {i rest back} hbody => ?_⟩
  have hnil : ∀ {j : Instr}, [j] = g.body → j = i ∧ back = [] := by
    intro j hj
    obtain ⟨hhead, htail⟩ := List.cons.inj (hj.trans hbody)
    exact ⟨hhead, List.map_eq_nil_iff.mp (List.append_eq_nil_iff.mp htail.symm).2⟩
  rw [hfuncs] at hg
  simp only [List.mem_cons, List.not_mem_nil, or_false] at hg
  rcases hg with rfl | rfl | rfl
  · obtain ⟨rfl, hback⟩ := hnil (j := giveVoid) rfl
    exact ⟨fun _ => ⟨rfl, hback⟩, fun hi => absurd hi (by simp [giveVoid, giveObject, getLocal])⟩
  · obtain ⟨rfl, hback⟩ := hnil (j := giveObject) rfl
    exact ⟨fun hi => absurd hi (by simp [giveVoid, giveObject, getLocal]), fun _ => ⟨rfl, hback⟩⟩
  · obtain ⟨rfl, -⟩ := hnil hselect.symm
    exact ⟨Instr.noConfusion, Instr.noConfusion⟩

/-- Void is given for an object of class `C` and the object itself for one of class `B`. No guard is
above an integer, so that is an error. -/
theorem case_picks_closest_twoGuards :
    let h := (build descending).1
    let m : Mark := ⟨⟨"chain.cl", 1⟩, .object⟩
    h.valid = true ∧ (caseOrder h twoGuards).map (·.type) = [.named "C", .named "A"] ∧
      ∃ code s' f, lower guardSite (.caseOf m (.object m .self) twoGuards) {} = .ok (code, s') ∧
        f ∈ s'.funcs ∧
        (∃ kept, FinishesAll (guardModule s'.funcs) f.body ⟨memoryOf (.named "C"), []⟩
          (.next ⟨memoryOf (.named "C"), kept ++ [.null]⟩)) ∧
        (∃ kept, FinishesAll (guardModule s'.funcs) f.body ⟨memoryOf (.named "B"), []⟩
          (.next ⟨memoryOf (.named "B"), kept ++ [.ref 0]⟩)) ∧
        FinishesAll (guardModule s'.funcs) f.body ⟨memoryOf .int, []⟩
          (.thrown abortTag [.i32 abortNoBranch]) := by
  intro h m
  have hvalid : h.valid = true := by decide
  have hrooted := Hierarchy.rooted_of_valid hvalid
  have hinherits : ∀ {c d : Name}, h.Inherits c d ↔ h.isBelow c d = true :=
    (Hierarchy.isBelow_iff hrooted).symm
  have hscrutinizes : ∀ c, Scrutinizes (memoryOf c) c := fun c => ⟨0, [], rfl, rfl⟩
  obtain ⟨-, -, hcode⟩ := @case_picks_closest descending hvalid twoGuards (by decide) (by decide)
  obtain ⟨code, s', hlower, hC, hA, hpicks⟩ := lower_twoGuards m.span
  obtain ⟨f, hf, -, hselects⟩ := (hcode guardSite rfl).2 m _ _ _ _ hlower
  refine ⟨hvalid, by decide, code, s', f, hlower, hf, ?_, ?_, ?_⟩
  · obtain ⟨g, hg, value, back, xs, ⟨s₀, code₀, s₁, hlowers, hbody⟩, hrun⟩ :=
      (hselects (.named "C") (by decide)).calls (.mk m.span (.named "x") (.named "C") (.block m []))
        (by simp [twoGuards, m]) (hinherits.mpr (by decide)) fun _ _ hc => hc
    cases hlowers
    obtain ⟨rfl, rfl⟩ := (hpicks g hg hbody).1 rfl
    obtain ⟨kept, hkept⟩ := finishes_gets s'.funcs (.named "C") xs [.null]
    refine ⟨kept, (hrun _ _ (hosts_guardModule _) (hscrutinizes _)).2 _ _ _ ?_ hkept⟩
    exact finishes_guardFunc hC rfl (by decide) (by decide) (hinherits.mpr (by decide))
      fun _ _ => .plain .nil (.run rfl)
  · have hclosest : ∀ b ∈ twoGuards, h.Inherits (.named "B") b.type →
        h.Inherits (.named "A") b.type := by
      simp only [hinherits]
      decide
    obtain ⟨g, hg, value, back, xs, ⟨s₀, code₀, s₁, hlowers, hbody⟩, hrun⟩ :=
      (hselects (.named "B") (by decide)).calls
        (.mk m.span (.named "x") (.named "A") (.object m (.named "x")))
        (by simp [twoGuards, m]) (hinherits.mpr (by decide)) hclosest
    cases hlowers with
    | object hreads =>
        have hinstrs : code₀.instrs = [giveObject] := hreads.instrs_of_local (by decide) rfl
        rw [Site.coerced, hinstrs] at hbody
        obtain ⟨rfl, rfl⟩ := (hpicks g hg hbody).2 rfl
        obtain ⟨kept, hkept⟩ := finishes_gets s'.funcs (.named "B") xs [.ref 0]
        refine ⟨kept, (hrun _ _ (hosts_guardModule _) (hscrutinizes _)).2 _ _ _ ?_ hkept⟩
        exact finishes_guardFunc hA rfl (by decide) (by decide) (hinherits.mpr (by decide))
          fun _ hx => .plain .nil (.run (Option.map_eq_some_iff.mpr ⟨_, hx, rfl⟩))
  · have hnone : ∀ b ∈ twoGuards, ¬ h.Inherits .int b.type := by
      simp only [hinherits]
      decide
    exact ((hselects .int (by decide)).throws hnone _ _ (hosts_guardModule _) (hscrutinizes _)
      _).mpr rfl

end

end Lowering

end Cool
