import Cool.Proofs.Lowering.Simulation
import Cool.Proofs.Lowering.Start
import Cool.Proofs.Pipeline.ValidCode

/-! What the code of an accepted program computes. The module of the program can be started, and in
it the code of an expression over local variables does what the expression means, whichever
functions were lifted from the expression. -/

namespace Cool

namespace Wat.Module

/-- A module with more functions. -/
def adding (m : Module) (fs : List Func) : Module :=
  { m with funcs := m.funcs ++ fs }

theorem HasFunc.adding {m : Module} {f : String} {params results : List ValType}
    (h : m.HasFunc f params results) (fs : List Func) : (m.adding fs).HasFunc f params results := by
  rcases h with ⟨d, hd, htype⟩ | himport
  · exact .inl ⟨d, List.mem_append_left _ hd, htype⟩
  · exact .inr himport

theorem NamesDistinct.adding {m : Module} (h : m.NamesDistinct) {fs : List Func}
    (hfuncs : (m.imports.map (·.id) ++ (m.funcs ++ fs).map (·.name)).Nodup) :
    (m.adding fs).NamesDistinct :=
  ⟨h.types, h.globals, hfuncs, h.fields⟩

end Wat.Module

namespace Lowering

open Wat Typing

theorem Provides.adding {m : Module} {ms : Members} {pool : Pool} (hm : Provides m ms pool)
    (fs : List Func) : Provides (m.adding fs) ms pool where
  fixed := hm.fixed
  object := hm.object
  table := hm.table
  slot := hm.slot
  tableGlobal := hm.tableGlobal
  constants := hm.constants
  tag := hm.tag
  helpers f hf := List.mem_append_left _ (hm.helpers f hf)
  allocator c hc := (hm.allocator c hc).adding fs
  initializer c hc hprim := (hm.initializer c hc hprim).adding fs
  generic c hc e he := (hm.generic c hc e he).adding fs
  implementation c hc e he hnot := (hm.implementation c hc e he hnot).adding fs

theorem generate_pool {p : Program} {ms : Members} {strings : Interner} {out : Output}
    (hout : generate ms strings p = .ok out) :
    Pool.ofProgram strings ms.hierarchy.topological p = .ok out.pool := by
  unfold generate at hout
  dsimp only at hout
  split at hout
  · cases hout
  · rename_i pool hpool
    split at hout
    · cases hout
    · cases hout
      exact hpool

/-- The variables of a site are those of an environment: its locals have names of their own, and
all of them are of classes. -/
structure Site.Checked (site : Site) (cx : Context) (L : Env) : Prop extends site.Matches cx L where
  covers : cx.Covers L
  named : ∀ p ∈ site.locals, p.name.isIdentifier = true ∧ p.name ≠ .self

/-- The visible locals, and only those, have values, each of its type. -/
structure Site.Describes (site : Site) (cx : Context) (σ : Valuation) : Prop where
  defined : ∀ x, (site.localTypes x).isSome → (σ x).isSome
  admits : cx.AdmitsAll site.localTypes σ

/-- Memory in a function of a module that was started: the receiver and the scratch locals are
there, and the variables lie in their locals. -/
structure Entered (st : Store) (frame : Frame) (σ : Valuation) (μ : Memory) : Prop where
  keeps : st.Keeps μ.store
  self : (μ.locals selfLocal).isSome
  scratch : ∀ l ∈ frame.locals, (μ.locals l.1).isSome
  holds : Holds μ σ

section

variable {site : Site} {cx : Context} {L : Env} {σ σ' : Valuation}

theorem Site.Checked.eq_some (hsite : site.Checked cx L) {x t : Name}
    (hx : site.localTypes x = some t) : L x = some t := by
  have hself := (hsite.named ⟨x, t⟩ (Site.mem_locals.mpr hx)).2
  rw [hsite.lookup x hself, Site.localTypes_eq_some.mp hx]
  rfl

namespace Site.Describes

theorem sees (hσ : site.Describes cx σ) : site.Sees σ := by
  intro x hx
  obtain ⟨v, hv⟩ := Option.isSome_iff_exists.mp hx
  obtain ⟨t, ht, -⟩ := hσ.admits x v hv
  rw [ht]
  rfl

theorem admitsAll (hσ : site.Describes cx σ) (hsite : site.Checked cx L) : cx.AdmitsAll L σ := by
  intro x v hv
  obtain ⟨t, ht, hadmits⟩ := hσ.admits x v hv
  exact ⟨t, hsite.eq_some ht, hadmits⟩

/-- The locals keep their types while an expression is evaluated. -/
theorem after (hσ : site.Describes cx σ) (hsite : site.Checked cx L) (hcx : cx.Proper)
    {e e' : Expr} {v : Value} {t : Name} (he : Evaluates σ e' v σ') (ht : HasType cx L e e' t) :
    site.Describes cx σ' := by
  refine ⟨fun x hx => he.isSome_eq x ▸ hσ.defined x hx, fun x u hu => ?_⟩
  obtain ⟨t₀, ht₀, hadmits⟩ :=
    (HasType.admits hcx.rooted he ht (hσ.admitsAll hsite)).2 x u hu
  obtain ⟨t₁, ht₁⟩ := Option.isSome_iff_exists.mp (hσ.sees.after he x (by rw [hu]; rfl))
  cases (hsite.eq_some ht₁).symm.trans ht₀
  exact ⟨t₀, ht₁, hadmits⟩

end Site.Describes

/-- Code may be run wherever a function of a module that was started was entered. -/
theorem Site.Checked.live (hsite : site.Checked cx L) {m : Module}
    (hm : Provides m cx.members site.pool) (hdistinct : m.NamesDistinct) {st : Store}
    (hloaded : site.pool.Loaded st) {frame : Frame} {μ : Memory} (hσ : site.Describes cx σ)
    (hμ : Entered st frame σ μ) :
    site.Live cx L ⟨m, (selfLocal, valueType cx.current) ::
      (slots cx.current site.locals ++ frame.locals)⟩ σ μ where
  toMatches := hsite.toMatches
  covers := hsite.covers
  provides := hm
  self := List.mem_cons_self
  locals l hl := List.mem_cons_of_mem _ (List.mem_append_left _ hl)
  named := hsite.named
  distinct := hdistinct
  admits := hσ.admitsAll hsite
  sees := hσ.sees
  holds := hμ.holds
  slots l hl := by
    rcases List.mem_cons.mp hl with rfl | hl
    · exact hμ.self
    rcases List.mem_append.mp hl with hl | hl
    · obtain ⟨p, hp, rfl⟩ := List.mem_map.mp hl
      have hsome : (site.localTypes p.name).isSome := by
        rw [Site.mem_locals.mp hp]
        rfl
      obtain ⟨v, hv⟩ := Option.isSome_iff_exists.mp (hσ.defined _ hsome)
      obtain ⟨w, hw, -⟩ := hμ.holds _ v hv
      exact Option.isSome_of_eq_some hw
    · exact hμ.scratch l hl
  loaded := hloaded.keep hμ.keeps

end

end Lowering

namespace Pipeline

open Lowering Wat Typing

theorem proper_of_accepted {p : Program} {ms : Members} (ha : (analyze p).verdict = .accepted ms)
    (hnamed : ∀ n ∈ p.nodes, n.isNamed = true) {c : Name} (hc : c ∈ ms.hierarchy.names) :
    (⟨ms, c⟩ : Context).Proper := by
  have h := analyzed_of_accepted ha
  refine ⟨h.installed _ hc, fun hmem => ?_⟩
  have hclass := (named_of_analyzed h hnamed).classes _ hmem
  revert hclass
  decide

/-- The module of an accepted program can be started, also with more functions in it, and then code
may be run in any function of it. -/
theorem exists_started {p : Program} {ms : Members} {strings : Interner} {out : Output}
    (ha : (analyze p).verdict = .accepted ms) (hnamed : ∀ n ∈ p.nodes, n.isNamed = true)
    (hout : generate ms strings (analyze p).program = .ok out) {added : List Func}
    (hdistinct : (out.module.adding added).NamesDistinct) {site : Site} {L : Env}
    (hpool : site.pool = out.pool) (hc : site.current ∈ ms.hierarchy.names)
    (hsite : site.Checked ⟨ms, site.current⟩ L) :
    ∃ st, (out.module.adding added).instantiate = some st ∧
      ∀ σ frame μ, site.Describes ⟨ms, site.current⟩ σ → Entered st frame σ μ →
        site.Live ⟨ms, site.current⟩ L ⟨out.module.adding added,
          (selfLocal, valueType site.current) ::
            (slots site.current site.locals ++ frame.locals)⟩ σ μ := by
  have h := analyzed_of_accepted ha
  have hcx := proper_of_accepted ha hnamed hc
  obtain ⟨pool, common, progress, hpool', hcommon, hemits, heq⟩ := generate_eq_ok hout
  cases hpool'.symm.trans (generate_pool hout)
  have hprovides : Provides (out.module.adding added) ms out.pool := by
    rw [heq]
    exact (provides_moduleOf h hcommon hemits).adding added
  obtain ⟨st, hst⟩ := exists_instantiate hprovides hdistinct
    (by rw [Module.adding, heq]; rfl) (fun c => Hierarchy.mem_topological h.coherent.rooted)
    hcx.builtin_mem
  have hloaded := loaded_of_instantiate hprovides hdistinct hst hcx.builtin_mem
  rw [← hpool] at hprovides hloaded
  exact ⟨st, hst, fun σ frame μ hσ hμ => hsite.live hprovides hdistinct hloaded hσ hμ⟩

/-- Lowering preserves meaning. The module of an accepted program can be started, also with the
functions lifted from an expression added. Wherever the expression evaluates to a value and divides
the least integer by -1 nowhere, its code has one outcome: what represents the value lies on top of
the operands there were, and the visible locals hold what evaluation leaves in them. -/
theorem lowering_preserves_meaning {p : Program} {ms : Members} {strings : Interner} {out : Output}
    (ha : (analyze p).verdict = .accepted ms) (hnamed : ∀ n ∈ p.nodes, n.isNamed = true)
    (hout : generate ms strings (analyze p).program = .ok out) {added : List Func}
    (hdistinct : (out.module.adding added).NamesDistinct) {site : Site} {L : Env} {e e' : Expr}
    {t : Name} {s s' : Progress} {code : Lowering.Code} (hpool : site.pool = out.pool)
    (hc : site.current ∈ ms.hierarchy.names) (hsite : site.Checked ⟨ms, site.current⟩ L)
    (ht : HasType ⟨ms, site.current⟩ L e e' t) (hn : ∀ n ∈ e.nodes, n.isNamed = true)
    (hlower : lower site e' s = .ok (code, s'))
    (hfuncs : ∀ f ∈ s'.funcs, f ∈ (out.module.adding added).funcs) :
    ∃ st, (out.module.adding added).instantiate = some st ∧
      ∀ σ v σ' μ, Evaluates σ e' v σ' → ¬ Overflows σ e' →
        site.Describes ⟨ms, site.current⟩ σ → Entered st s'.frame σ μ →
        ∃ μ' w, Represents μ'.store w v ∧ site.Describes ⟨ms, site.current⟩ σ' ∧ Holds μ' σ' ∧
          ∀ rest o, ExecutesAll (out.module.adding added) code.instrs ⟨μ, rest⟩ o ↔
            o = .next ⟨μ', w :: rest⟩ := by
  have hcx := proper_of_accepted ha hnamed hc
  obtain ⟨st, hst, hlives⟩ := exists_started ha hnamed hout hdistinct hpool hc hsite
  refine ⟨st, hst, fun σ v σ' μ he hrange hσ hμ => ?_⟩
  obtain ⟨μ', w, hleaves, hw⟩ := (simulates hcx he hrange).leaves (Lowers.of_ok e' hlower) ht hn
    ⟨fun l hl => List.mem_cons_of_mem _ (List.mem_append_right _ hl), hfuncs⟩
    (hlives σ s'.frame μ hσ hμ)
  refine ⟨μ', w, hw, hσ.after hsite hcx he ht, hleaves.holds, fun rest o => ⟨fun ho => ?_, ?_⟩⟩
  · exact ho.unique (hleaves.does rest)
  · rintro rfl
    exact hleaves.does rest

/-- The tree of a class with a method `f() : Object` whose body is `{ 1; 3; }`. -/
def numbers : Program :=
  let span : Span := ⟨"numbers.cl", 1⟩
  let m : Mark := { span }
  ⟨span, [⟨span, .named "A", .object,
    [.method ⟨span, .named "f", [], .object, .block m [.int m "1", .int m "3"]⟩]⟩]⟩

/-- The tree of a loop, `while x < 3 loop { y <- x; x <- x + 1; } pool`. -/
def countingLoop : Expr :=
  let m (t : Name) : Mark := { span := ⟨"numbers.cl", 1⟩, type := t }
  let x : Name := .named "x"
  .loop (m .object) (.binary (m .bool) .lt (.object (m .int) x) (.int (m .int) "3"))
    (.block (m .int)
      [.assign (m .int) (.named "y") (.object (m .int) x),
        .assign (m .int) x (.binary (m .int) .plus (.object (m .int) x) (.int (m .int) "1"))])

/-- The tree of an expression that runs the loop inside of a let and hides `y` after it:
`let x : Int <- 1 in { while ... pool; let y : Bool in not y; }`. -/
def counting : Expr :=
  let m (t : Name) : Mark := { span := ⟨"numbers.cl", 1⟩, type := t }
  let y : Name := .named "y"
  .letIn (m .bool) (.named "x") .int (.int (m .int) "1")
    (.block (m .bool)
      [countingLoop,
        .letIn (m .bool) y .bool (.noExpr (m .noType))
          (.unary (m .bool) .comp (.object (m .bool) y))])

theorem countingLoop_hasType {cx : Context} (hcx : cx.Installed) {Γ : Env}
    (hx : Γ (.named "x") = some .int) (hy : Γ (.named "y") = some .object) :
    HasType cx Γ countingLoop countingLoop .object := by
  have hmem : .int ∈ cx.hierarchy.names := hcx.builtin_mem _ rfl
  have hobject : cx.Conforms .int .object :=
    .ofClass hmem (Hierarchy.inherits_object hcx.coherent.rooted hmem)
  exact .loop (.comparison rfl (by decide) (.object hx) .int)
    (.block (.cons (.assign (by decide) hy (.object hx) hobject)
      (.cons (.assign (by decide) hx (.arithmetic rfl (.object hx) .int) (.refl (.inr hmem)))
        .nil)))

theorem counting_hasType {cx : Context} (hcx : cx.Installed) {Γ : Env}
    (hy : Γ (.named "y") = some .object) : HasType cx Γ counting counting .bool := by
  have hint : cx.IsType .int := .inr (hcx.builtin_mem _ rfl)
  have hloop : HasType cx (Γ.bind (.named "x") .int) countingLoop countingLoop .object :=
    countingLoop_hasType hcx rfl ((if_neg (by decide)).trans hy)
  refine .letIn (by decide) hint .int (.refl hint) (.block (.cons hloop (.cons ?_ .nil)))
  exact .letDefault (by decide) (.inr (hcx.builtin_mem _ rfl)) rfl (.comp (.object rfl))

/-- The loop goes on with `y` at `x` and `x` one further. -/
theorem countingLoop_again {σ σ' : Valuation} {n : Int32} (hn : n.toInt < 3)
    (hx : σ (.named "x") = some (.int n)) (hy : (σ (.named "y")).isSome)
    (hrest : Evaluates (Function.update (Function.update σ (.named "y") (some (.int n)))
      (.named "x") (some (.int (.ofInt (n.toInt + 1))))) countingLoop .void σ') :
    Evaluates σ countingLoop .void σ' := by
  have hx' : Function.update σ (.named "y") (some (.int n)) (.named "x") = some (.int n) :=
    (Function.update_of_ne (by decide) _ _).trans hx
  refine .loopAgain (.integers (b := 3) (.object hx) (.int rfl) ?_)
    (.block (.cons (.assign (.object hx) hy) (.cons (.assign (.integers (.object hx')
      (.int (n := 1) rfl) rfl) (by rw [hx']; rfl)) .nil))) hrest
  simp [BinaryOp.value?, hn]

theorem counting_evaluates : ∃ σ', σ' (.named "y") = some (.int 2) ∧
    Evaluates (Function.update (fun _ => none) (.named "y") (some .void)) counting (.bool true)
      σ' := by
  have hexit {σ : Valuation} (hx : σ (.named "x") = some (.int 3)) :
      Evaluates σ countingLoop .void σ := .loopExit (.integers (.object hx) (.int rfl) rfl)
  refine ⟨_, ?_, .letIn rfl (.int (n := 1) rfl) (.block (.cons
    (countingLoop_again (by decide) rfl rfl (countingLoop_again (by decide) rfl rfl (hexit rfl)))
    (.cons (.letDefault rfl (.comp (b := false) (.object rfl))) .nil)))⟩
  decide

/-- A site in a class that sees one local, `y : Object`. -/
def sightOfY (ms : Members) (pool : Pool) : Site :=
  Site.bind ⟨ms, pool, .named "A", {}⟩ (.named "y") .object

theorem localTypes_sightOfY (ms : Members) (pool : Pool) :
    (sightOfY ms pool).localTypes = Env.bind (fun _ => none) (.named "y") .object :=
  Site.localTypes_bind ..

theorem checked_sightOfY {ms : Members} (pool : Pool)
    (hcx : (⟨ms, .named "A"⟩ : Context).Installed) : (sightOfY ms pool).Checked ⟨ms, .named "A"⟩
      (Env.bind (fun _ => none) (.named "y") .object) where
  toMatches := Site.Matches.bind ⟨rfl, rfl, fun _ _ => rfl, fun _ _ hx => by cases hx⟩ _ _
  covers x t hx := by
    unfold Env.bind at hx
    split at hx
    · cases hx
      exact .inr (hcx.builtin_mem _ rfl)
    · cases hx
  named q hq := by
    rw [Site.mem_locals, localTypes_sightOfY, Env.bind] at hq
    split at hq
    · rename_i hname
      rw [hname]
      decide
    · cases hq

theorem describes_sightOfY (ms : Members) (pool : Pool) : (sightOfY ms pool).Describes
    ⟨ms, .named "A"⟩ (Function.update (fun _ => none) (.named "y") (some .void)) where
  defined x hx := by
    rw [localTypes_sightOfY, Env.bind] at hx
    split at hx
    · rename_i hname
      rw [hname, Function.update_self]
      rfl
    · cases hx
  admits x v hv := by
    by_cases hx : x = .named "y"
    · subst hx
      rw [Function.update_self] at hv
      cases hv
      exact ⟨.object, by rw [localTypes_sightOfY]; rfl, fun _ hclass => by cases hclass⟩
    · rw [Function.update_of_ne hx] at hv
      cases hv

theorem lowering_preserves_meaning_counting : ∃ ms out code s' st μ μ' w u,
    (analyze numbers).verdict = .accepted ms ∧
    generate ms {} (analyze numbers).program = .ok out ∧
    lower (sightOfY ms out.pool) counting {} = .ok (code, s') ∧
    (out.module.adding s'.funcs).instantiate = some st ∧
    Entered st s'.frame (Function.update (fun _ => none) (.named "y") (some .void)) μ ∧
    Represents μ'.store w (.bool true) ∧ μ'.locals (localId (.named "y")) = some u ∧
    Represents μ'.store u (.int 2) ∧
    ∀ rest o, ExecutesAll (out.module.adding s'.funcs) code.instrs ⟨μ, rest⟩ o ↔
      o = .next ⟨μ', w :: rest⟩ := by
  have hcomputed : (analyze numbers).verdict.acceptedWith (fun ms =>
      match generate ms {} (analyze numbers).program with
      | .ok out =>
          match lower (sightOfY ms out.pool) counting {} with
          | .ok (_, s') => decide (.named "A" ∈ ms.hierarchy.names ∧
              (out.module.imports.map (·.id) ++
                (out.module.funcs ++ s'.funcs).map (·.name)).Nodup)
          | .error _ => false
      | .error _ => false) = true := by
    decide +kernel
  obtain ⟨ms, ha, hcomputed⟩ := Verdict.exists_of_acceptedWith hcomputed
  split at hcomputed
  · rename_i out hout
    split at hcomputed
    · rename_i code s' hlower
      obtain ⟨hc, hfuncs⟩ := of_decide_eq_true hcomputed
      have hnamed : ∀ n ∈ numbers.nodes, n.isNamed = true := by decide +kernel
      have h := analyzed_of_accepted ha
      obtain ⟨pool, common, progress, hpool, hcommon, hemits, heq⟩ := generate_eq_ok hout
      have hdistinct : out.module.NamesDistinct := heq ▸ namesDistinct_moduleOf h
        (named_of_analyzed h hnamed) (Pool.serves_of_ofProgram hpool).ints_nodup hcommon hemits
      have hsite := checked_sightOfY out.pool (h.installed _ hc)
      obtain ⟨st, hst, hmeaning⟩ := lowering_preserves_meaning ha hnamed hout
        (hdistinct.adding hfuncs) (by exact rfl) (by exact hc) hsite
        (counting_hasType (h.installed _ hc) rfl) (by decide +kernel) hlower
        fun f hf => List.mem_append_right _ hf
      obtain ⟨σ', hy, he⟩ := counting_evaluates
      -- every local of the function starts as null, which is what represents void
      have hentered : Entered st s'.frame
          (Function.update (fun _ => none) (.named "y") (some .void))
          ⟨st, fun _ => some .null⟩ := by
        refine ⟨.refl _, rfl, fun _ _ => rfl, fun x v hx => ⟨.null, rfl, ?_⟩⟩
        by_cases hxy : x = .named "y"
        · rw [hxy, Function.update_self] at hx
          cases hx
          exact .void
        · rw [Function.update_of_ne hxy] at hx
          cases hx
      have hrange : ¬ Overflows (Function.update (fun _ => none) (.named "y") (some .void))
          counting := by
        intro ho
        obtain ⟨n, hn, hdivision⟩ := ho.exists_division
        revert n
        decide +kernel
      obtain ⟨μ', w, hw, -, hholds, hruns⟩ := hmeaning _ _ _ _ he hrange
        (describes_sightOfY ms out.pool) hentered
      obtain ⟨u, hu, hrepr⟩ := hholds _ _ hy
      exact ⟨ms, out, code, s', st, _, μ', w, u, ha, hout, hlower, hst, hentered, hw, hu, hrepr,
        hruns⟩
    · cases hcomputed
  · cases hcomputed

/-- The tree of `(~2147483647 - 1) / ~1`, the quotient of the least integer by -1. -/
def leastQuotient : Expr :=
  let m : Mark := { span := ⟨"least.cl", 1⟩, type := .int }
  .binary m .divide
    (.binary m .sub (.unary m .neg (.int m "2147483647")) (.int m "1"))
    (.unary m .neg (.int m "1"))

/-- The tree of a class with a method `f() : Int` whose body is the quotient. -/
def leastDivided : Program :=
  let span : Span := ⟨"least.cl", 1⟩
  ⟨span, [⟨span, .named "A", .object, [.method ⟨span, .named "f", [], .int, leastQuotient⟩]⟩]⟩

/-- A site in a class that sees no locals. -/
def sightOfNothing (ms : Members) (pool : Pool) : Site :=
  ⟨ms, pool, .named "A", {}⟩

theorem leastQuotient_hasType (cx : Context) (Γ : Env) :
    HasType cx Γ leastQuotient leastQuotient .int :=
  .arithmetic rfl (.arithmetic rfl (.neg .int) .int) (.neg .int)

theorem leastQuotient_evaluates (σ : Valuation) :
    Evaluates σ leastQuotient (.int .minValue) σ :=
  .integers (.integers (.neg (.int (n := 2147483647) rfl)) (.int (n := 1) rfl) rfl)
    (.neg (.int (n := 1) rfl)) rfl

/-- The meaning of the least integer divided by -1 is not preserved: in two's complement it is the
least integer again, but its code has no outcome. -/
theorem leastQuotient_has_no_outcome : ∃ ms out code s' st μ,
    (analyze leastDivided).verdict = .accepted ms ∧
    generate ms {} (analyze leastDivided).program = .ok out ∧
    .named "A" ∈ ms.hierarchy.names ∧
    (sightOfNothing ms out.pool).Checked ⟨ms, .named "A"⟩ (fun _ => none) ∧
    HasType ⟨ms, .named "A"⟩ (fun _ => none) leastQuotient leastQuotient .int ∧
    (∀ n ∈ leastQuotient.nodes, n.isNamed = true) ∧
    lower (sightOfNothing ms out.pool) leastQuotient {} = .ok (code, s') ∧
    (out.module.adding s'.funcs).NamesDistinct ∧
    (out.module.adding s'.funcs).instantiate = some st ∧
    (sightOfNothing ms out.pool).Describes ⟨ms, .named "A"⟩ (fun _ => none) ∧
    Entered st s'.frame (fun _ => none) μ ∧
    Evaluates (fun _ => none) leastQuotient (.int .minValue) (fun _ => none) ∧
    ∀ rest o, ¬ ExecutesAll (out.module.adding s'.funcs) code.instrs ⟨μ, rest⟩ o := by
  have hcomputed : (analyze leastDivided).verdict.acceptedWith (fun ms =>
      match generate ms {} (analyze leastDivided).program with
      | .ok out =>
          match lower (sightOfNothing ms out.pool) leastQuotient {} with
          | .ok (_, s') => decide (.named "A" ∈ ms.hierarchy.names ∧
              (out.module.imports.map (·.id) ++
                (out.module.funcs ++ s'.funcs).map (·.name)).Nodup)
          | .error _ => false
      | .error _ => false) = true := by
    decide +kernel
  obtain ⟨ms, ha, hcomputed⟩ := Verdict.exists_of_acceptedWith hcomputed
  split at hcomputed
  · rename_i out hout
    split at hcomputed
    · rename_i code s' hlower
      obtain ⟨hc, hfuncs⟩ := of_decide_eq_true hcomputed
      have hnamed : ∀ n ∈ leastDivided.nodes, n.isNamed = true := by decide +kernel
      have hn : ∀ n ∈ leastQuotient.nodes, n.isNamed = true := by decide +kernel
      have h := analyzed_of_accepted ha
      obtain ⟨pool, common, progress, hpool, hcommon, hemits, heq⟩ := generate_eq_ok hout
      have hdistinct : out.module.NamesDistinct := heq ▸ namesDistinct_moduleOf h
        (named_of_analyzed h hnamed) (Pool.serves_of_ofProgram hpool).ints_nodup hcommon hemits
      have hsite : (sightOfNothing ms out.pool).Checked ⟨ms, .named "A"⟩ (fun _ => none) :=
        { toMatches := ⟨rfl, rfl, fun _ _ => rfl, fun _ _ hx => by cases hx⟩
          covers := fun _ _ hx => by cases hx
          named := List.forall_mem_nil _ }
      have hdescribes : (sightOfNothing ms out.pool).Describes ⟨ms, .named "A"⟩ (fun _ => none) :=
        ⟨fun _ hx => Bool.noConfusion hx, fun _ _ hv => by cases hv⟩
      obtain ⟨st, hst, hlives⟩ := exists_started ha hnamed hout (hdistinct.adding hfuncs)
        (by exact rfl) (by exact hc) hsite
      have hentered : Entered st s'.frame (fun _ => none) ⟨st, fun _ => some .null⟩ :=
        ⟨.refl _, rfl, fun _ _ => rfl, fun _ _ hx => by cases hx⟩
      have hcx := proper_of_accepted ha hnamed hc
      -- the operands are computed, so the machine comes to the division
      have hsimulates : ∀ {e' : Expr} {n : Int32}, Evaluates (fun _ => none) e' (.int n)
          (fun _ => none) → (∀ n ∈ e'.nodes, n.isDivision = false) →
          Simulates ⟨ms, .named "A"⟩ (fun _ => none) e' (.int n) (fun _ => none) := by
        intro e' n he hnone
        refine simulates hcx he fun ho => ?_
        obtain ⟨n, hn, hdivision⟩ := ho.exists_division
        cases hdivision.symm.trans (hnone n hn)
      refine ⟨ms, out, code, s', st, _, ha, hout, hc, hsite, leastQuotient_hasType _ _, hn, hlower,
        hdistinct.adding hfuncs, hst, hdescribes, hentered, leastQuotient_evaluates _, ?_⟩
      refine Simulates.not_executesAll_divide hcx
        (hsimulates (.integers (.neg (.int (n := 2147483647) rfl)) (.int (n := 1) rfl) rfl)
          (by decide +kernel)) (hsimulates (.neg (.int (n := 1) rfl)) (by decide +kernel))
        (Lowers.of_ok _ hlower) (leastQuotient_hasType _ _) hn
        ⟨fun l hl => List.mem_cons_of_mem _ (List.mem_append_right _ hl),
          fun f hf => List.mem_append_right _ hf⟩ (hlives _ _ _ hdescribes hentered)
    · cases hcomputed
  · cases hcomputed

end Pipeline

end Cool
