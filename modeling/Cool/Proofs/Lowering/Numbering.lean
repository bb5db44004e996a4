import Cool.Lowering.Generator
import Cool.Proofs.Lowering.Constants

/-! Lowering never sees how symbols are numbered. It asks the pool for the global of a constant, and
that is given by the place of the constant in the pool, whatever table the pool was made over. -/

namespace Cool.Lowering

open Wat
open Scope (distinct)

/-! ## Pools over different tables -/

namespace Pool

/-- Two pools with the same constants in the same globals. -/
structure Alike (p q : Pool) : Prop where
  int : ∀ n, p.int n = q.int n
  text : ∀ v, p.text v = q.text v
  globals : p.globals = q.globals

/-- Where symbols are those of a table, the place of a symbol is the place of its text. -/
theorem idxOf?_symbol {table : Interner} {ss : List Symbol}
    (hss : ∀ s ∈ ss, table.find? s.text = some s) {v : String} {s : Symbol}
    (hs : table.find? v = some s) : ss.idxOf? s = (ss.map (·.text)).idxOf? v := by
  induction ss with
  | nil => rfl
  | cons s' ss ih =>
      obtain ⟨hs', hss⟩ := List.forall_mem_cons.mp hss
      have htext : s.text = v := (Interner.get?_of_find? hs).1
      have hiff : s' = s ↔ s'.text = v := by
        constructor
        · rintro rfl
          exact htext
        · rintro rfl
          exact Option.some.inj (hs'.symm.trans hs)
      rw [List.map_cons, List.idxOf?_cons, List.idxOf?_cons, ih hss]
      simp only [beq_iff_eq, hiff]

theorem stringDefinitions_congr {ss ss' : List Symbol}
    (h : ss.map (·.text) = ss'.map (·.text)) (i : Nat) :
    stringDefinitions i ss = stringDefinitions i ss' := by
  induction ss generalizing ss' i with
  | nil =>
      rw [List.map_nil, eq_comm, List.map_eq_nil_iff] at h
      rw [h]
  | cons s ss ih =>
      obtain ⟨s', ss', rfl, hs, hss⟩ := List.map_eq_cons_iff.mp h.symm
      rw [stringDefinitions, stringDefinitions, ih hss.symm, hs]

section

variable {strings strings' : Interner} {p q : Pool} {ns : List Int32} {vs : List String}

/-- The global of a text is given by its place among the distinct texts. -/
theorem Lists.text_eq_idxOf? (h : p.Lists strings ns vs) (v : String) :
    p.text v =
      match (distinct vs).idxOf? v with
      | some i => .ok (stringGlobal i)
      | none => .error (.stringNotPooled v) := by
  rw [Pool.text, ← h.texts_eq]
  cases hv : p.table.find? v with
  | some s =>
      obtain rfl := (Interner.get?_of_find? hv).1
      dsimp only
      rw [← idxOf?_symbol h.symbols hv]
      rfl
  | none =>
      have hnot : v ∉ p.strings.map (·.text) := by
        intro hmem
        obtain ⟨s, hs, rfl⟩ := List.mem_map.mp hmem
        cases (h.symbols s hs).symm.trans hv
      rw [List.idxOf?_eq_none_iff.mpr hnot]

theorem Lists.alike (hp : p.Lists strings ns vs) (hq : q.Lists strings' ns vs) : p.Alike q where
  int n := by rw [Pool.int, Pool.int, hp.ints_eq, hq.ints_eq]
  text v := by rw [hp.text_eq_idxOf?, hq.text_eq_idxOf?]
  globals := by
    rw [Pool.globals, Pool.globals, hp.ints_eq, hq.ints_eq,
      stringDefinitions_congr (hp.texts_eq.trans hq.texts_eq.symm)]

/-- The values of tokens are determined by the tokens. -/
theorem values_unique {ts : List String} {ms : List Int32}
    (hn : List.Forall₂ (fun t n => Literal.parse t = .ok n) ts ns)
    (hm : List.Forall₂ (fun t n => Literal.parse t = .ok n) ts ms) : ns = ms := by
  induction hn generalizing ms with
  | nil =>
      cases hm
      rfl
  | cons h _ ih =>
      cases hm with
      | cons h' hrest => rw [ih hrest, Except.ok.inj (h.symm.trans h')]

/-- Pools over any tables fail with the same error, or become alike. -/
theorem Lists.collect (hp : p.Lists strings ns vs) (hq : q.Lists strings' ns vs)
    (program : Program) :
    (∃ e, p.collect program = .error e ∧ q.collect program = .error e) ∨
      ∃ p' q', p.collect program = .ok p' ∧ q.collect program = .ok q' ∧ p'.Alike q' := by
  rw [collect_eq_fold, collect_eq_fold]
  cases hp' : Visitor.fold visit program.nodes (.ok p) with
  | error e =>
      exact .inl ⟨e, rfl, fold_eq_error_iff.mpr (fold_eq_error_iff.mp hp')⟩
  | ok p' =>
      cases hq' : Visitor.fold visit program.nodes (.ok q) with
      | error e =>
          cases (fold_eq_error_iff.mpr (fold_eq_error_iff.mp hq')).symm.trans hp'
      | ok q' =>
          obtain ⟨values, hvalues, hlists⟩ := hp.fold hp'
          obtain ⟨values', hvalues', hlists'⟩ := hq.fold hq'
          cases values_unique hvalues hvalues'
          exact .inr ⟨p', q', rfl, rfl, hlists.alike hlists'⟩

end

end Pool

/-! ## Lowering with another pool -/

namespace Site

/-- The site with the constants of another pool. -/
def withPool (site : Site) (pool : Pool) : Site :=
  { site with pool := pool }

variable {site : Site} {pool : Pool} (h : pool.Alike site.pool)

theorem lowerArms_withPool (pool : Pool) (name : String) (value : Name) (label : String) (i : Nat)
    (arms : List Arm) :
    (site.withPool pool).lowerArms name value label i arms =
      site.lowerArms name value label i arms := by
  induction arms generalizing i with
  | nil => rfl
  | cons arm arms ih =>
      rw [lowerArms, lowerArms, ih]
      rfl

include h

theorem defaultValue_withPool (t : Name) :
    (site.withPool pool).defaultValue t = site.defaultValue t := by
  have hint : (site.withPool pool).pool.int 0 = site.pool.int 0 := h.int 0
  have htext : (site.withPool pool).pool.text "" = site.pool.text "" := h.text ""
  rw [defaultValue, defaultValue, hint, htext]
  rfl

end Site

mutual

theorem lower_withPool {pool : Pool} : ∀ (e : Expr) {site : Site}, pool.Alike site.pool →
    lower (site.withPool pool) e = lower site e
  | .missing, _, _ | .noExpr _, _, _ | .bool _ _, _, _ => by
      rw [lower, lower]
  | .object _ _, _, _ | .new _ _, _, _ => by
      rw [lower, lower]
      rfl
  | .int _ token, site, h => by
      have hint : ∀ n, (site.withPool pool).pool.int n = site.pool.int n := h.int
      rw [lower, lower]
      simp only [hint]
  | .string _ value, site, h => by
      have htext : (site.withPool pool).pool.text value = site.pool.text value := h.text value
      rw [lower, lower, htext]
  | .assign _ x value, _, h => by
      rw [lower, lower, lower_withPool value h]
      rfl
  | .dispatch _ receiver _ args, _, h => by
      rw [lower, lower, lower_withPool receiver h]
      simp only [lowerArgs_withPool args h]
      rfl
  | .staticDispatch _ receiver _ _ args, _, h => by
      rw [lower, lower, lower_withPool receiver h]
      simp only [lowerArgs_withPool args h]
      rfl
  | .cond _ pred onTrue onFalse, _, h => by
      rw [lower, lower, lower_withPool pred h, lower_withPool onTrue h, lower_withPool onFalse h]
      rfl
  | .loop _ pred body, _, h => by
      rw [lower, lower, lower_withPool pred h, lower_withPool body h]
      rfl
  | .block _ [], _, _ => by
      rw [lower, lower]
  | .block _ (e :: rest), _, h => by
      rw [lower, lower, lower_withPool e h]
      simp only [lowerRest_withPool rest h]
  | .binary _ .eq left right, _, h => by
      rw [lower, lower, lower_withPool left h, lower_withPool right h]
      rfl
  | .binary _ .plus left right, _, h | .binary _ .sub left right, _, h
  | .binary _ .mul left right, _, h | .binary _ .divide left right, _, h
  | .binary _ .lt left right, _, h | .binary _ .leq left right, _, h => by
      rw [lower_integer rfl, lower_integer rfl, lower_withPool left h, lower_withPool right h]
      rfl
  | .binary _ (.unknown _) _ _, _, _ => by
      rw [lower, lower]
      rfl
  | .unary _ .neg operand, _, h | .unary _ .comp operand, _, h => by
      rw [lower, lower, lower_withPool operand h]
      rfl
  | .unary _ .isvoid operand, _, h => by
      rw [lower, lower, lower_withPool operand h]
  | .unary _ (.unknown _) _, _, _ => by
      rw [lower, lower]
  | .letIn _ x type init body, site, h => by
      have hbody : lower ((site.withPool pool).bind x type) body = lower (site.bind x type) body :=
        @lower_withPool pool body (site.bind x type) h
      have hinit : ∀ declared, initial (site.withPool pool) type declared init =
          initial site type declared init := by
        intro declared
        rw [initial, initial, lower_withPool init h, Site.defaultValue_withPool h]
        rfl
      rw [lower_let, lower_let, hbody]
      simp only [hinit]
      rfl
  | .caseOf _ scrutinee branches, site, h => by
      have hbranches : ∀ value, lowerBranches (site.withPool pool) value branches =
          lowerBranches site value branches := fun value => lowerBranches_withPool branches h value
      rw [lower, lower, lower_withPool scrutinee h]
      simp only [hbranches, Site.lowerArms_withPool]
      rfl
termination_by structural e => e

theorem lowerRest_withPool {pool : Pool} : ∀ (es : List Expr) {site : Site},
    pool.Alike site.pool → ∀ before,
    lowerRest (site.withPool pool) before es = lowerRest site before es
  | [], _, _, _ => by
      rw [lowerRest, lowerRest]
  | e :: rest, _, h, _ => by
      rw [lowerRest, lowerRest, lower_withPool e h]
      simp only [lowerRest_withPool rest h]
termination_by structural es => es

theorem lowerArgs_withPool {pool : Pool} : ∀ (es : List Expr) {site : Site},
    pool.Alike site.pool → ∀ ps, lowerArgs (site.withPool pool) ps es = lowerArgs site ps es
  | [], _, _, _ => by
      rw [lowerArgs, lowerArgs]
  | _ :: _, _, _, [] => by
      rw [lowerArgs, lowerArgs]
  | e :: rest, _, h, p :: ps => by
      rw [lowerArgs, lowerArgs, lower_withPool e h, lowerArgs_withPool rest h]
      rfl
termination_by structural es => es

theorem lowerBranches_withPool {pool : Pool} : ∀ (bs : List Branch) {site : Site},
    pool.Alike site.pool → ∀ value,
    lowerBranches (site.withPool pool) value bs = lowerBranches site value bs
  | [], _, _, _ => by
      rw [lowerBranches, lowerBranches]
  | .mk _ x guard body :: rest, site, h, value => by
      have hbody : lower ((site.withPool pool).bind x guard) body =
          lower (site.bind x guard) body :=
        @lower_withPool pool body (site.bind x guard) h
      rw [lowerBranches, lowerBranches, lowerBranches_withPool rest h, hbody]
      rfl
termination_by structural bs => bs

end

namespace Site

variable {site : Site} {pool : Pool} (h : pool.Alike site.pool)

include h

theorem newDefinition_withPool (cls : Name) :
    (site.withPool pool).newDefinition cls = site.newDefinition cls := by
  have hdefault : (site.withPool pool).defaultValue = site.defaultValue :=
    funext (defaultValue_withPool h)
  rw [newDefinition, newDefinition, hdefault]
  rfl

theorem lowerAs_withPool (want : Name) (e : Expr) :
    lowerAs (site.withPool pool) want e = lowerAs site want e := by
  rw [lowerAs, lowerAs, lower_withPool e h]
  rfl

theorem initializers_withPool (features : List Feature) :
    (site.withPool pool).initializers features = site.initializers features := by
  induction features with
  | nil => rfl
  | cons f features ih =>
      cases f with
      | method m => rw [initializers, initializers, ih]
      | attr a =>
          rw [initializers, initializers, ih]
          simp only [lowerAs_withPool h]
          rfl

theorem emitInit_withPool (features : List Feature) :
    (site.withPool pool).emitInit features = site.emitInit features := by
  rw [emitInit, emitInit, initializers_withPool h]
  rfl

theorem perClassDefinitions_withPool (cls : Name) :
    (site.withPool pool).perClassDefinitions cls = site.perClassDefinitions cls := by
  have hname : (site.withPool pool).typeNameDefinition cls = site.typeNameDefinition cls := by
    have htext : (site.withPool pool).pool.text cls.text = site.pool.text cls.text := h.text _
    rw [typeNameDefinition, typeNameDefinition, htext]
    rfl
  rw [perClassDefinitions, perClassDefinitions, hname]
  rfl

theorem emitMethods_withPool (features : List Feature) :
    (site.withPool pool).emitMethods features = site.emitMethods features := by
  induction features with
  | nil => rfl
  | cons f features ih =>
      cases f with
      | attr a => rw [emitMethods, emitMethods, ih]
      | method m =>
          have hbody : ∀ want, lowerAs ((site.withPool pool).withFormals m.formals) want m.body =
              lowerAs (site.withFormals m.formals) want m.body :=
            fun want => @lowerAs_withPool (site.withFormals m.formals) pool h want m.body
          have hmethod : (site.withPool pool).emitMethod m = site.emitMethod m := by
            rw [emitMethod_eq, emitMethod_eq]
            simp only [hbody]
            rfl
          rw [emitMethods, emitMethods, ih, hmethod]

end Site

/-- The functions of a class are the same over pools that are alike. -/
theorem emitClass_congr {pool pool' : Pool} (h : pool.Alike pool') (ms : Members) (cls : Name)
    (features : List Feature) :
    emitClass ms pool cls features = emitClass ms pool' cls features := by
  have hsite : classSite ms pool cls = (classSite ms pool' cls).withPool pool := rfl
  have hinit : ((classSite ms pool' cls).withPool pool).emitInitIfAny features =
      (classSite ms pool' cls).emitInitIfAny features := by
    rw [Site.emitInitIfAny, Site.emitInitIfAny, Site.emitInit_withPool h]
    rfl
  rw [emitClass_eq, emitClass_eq, hsite, Site.newDefinition_withPool h, hinit,
    Site.perClassDefinitions_withPool h, Site.emitMethods_withPool h]

end Cool.Lowering
