import Cool.Proofs.Hierarchy.Order

/-! The topological order. A visit is bounded by the number of classes; its rules have no bound, and
the bound never cuts a visit short. So whatever the parents are, every class comes in order once,
and after its parent unless the class lies on a cycle. -/

namespace Cool.Hierarchy

open Relation (TransGen)

variable {h : Hierarchy}

/-- Every class of a list comes after its parent. -/
def ParentsFirst (h : Hierarchy) (order : List Name) : Prop :=
  ∀ before c after, order = before ++ c :: after → ∀ p, h.parent? c = some p → p ∈ before

/-- Whether following parents from a class leads back to it. -/
def OnCycle (h : Hierarchy) (c : Name) : Prop :=
  TransGen (fun c p => h.parent? c = some p) c c

/-- Every class of a list that lies on no cycle comes after its parent, if that is installed. -/
def ParentsFirstOffCycles (h : Hierarchy) (order : List Name) : Prop :=
  ∀ before c after, order = before ++ c :: after → ¬ h.OnCycle c →
    ∀ p, h.parent? c = some p → p ∈ h.names → p ∈ before

/-- A visit without a bound. A class that was met is passed over. Any other is marked as met, then
its parent is visited if that is installed, then the class goes in order. -/
inductive Visits (h : Hierarchy) : Visit → Name → Visit → Prop where
  | again {s c} : c ∈ s.met → Visits h s c s
  | alone {s c} : c ∉ s.met → (∀ p, h.parent? c = some p → p ∉ h.names) →
      Visits h s c ⟨c :: s.met, s.order ++ [c]⟩
  | behind {s s' c p} : c ∉ s.met → h.parent? c = some p → p ∈ h.names →
      Visits h ⟨c :: s.met, s.order⟩ p s' → Visits h s c ⟨s'.met, s'.order ++ [c]⟩

/-- Visits of classes one after the other. -/
inductive VisitsAll (h : Hierarchy) : Visit → List Name → Visit → Prop where
  | nil {s} : VisitsAll h s [] s
  | cons {s s' s'' c cs} : h.Visits s c s' → VisitsAll h s' cs s'' → VisitsAll h s (c :: cs) s''

/-- Whether visiting the classes in the order of installation ends, and ends with this order. -/
def SortsTo (h : Hierarchy) (order : List Name) : Prop :=
  ∃ met, h.VisitsAll {} h.names ⟨met, order⟩

/-! ## Bounded visits -/

theorem visit_of_met {fuel : Nat} {s : Visit} {c : Name} (hc : c ∈ s.met) :
    h.visit fuel s c = s := by
  cases fuel with
  | zero => rfl
  | succ fuel => rw [visit, if_pos hc]

/-- The classes whose visit is going on are distinct, so the bound is never reached. -/
theorem visits_visit {fuel : Nat} {pending : List Name} {s : Visit} {c : Name}
    (hnodup : pending.Nodup) (hsub : pending ⊆ h.names) (hmet : pending ⊆ s.met)
    (hc : c ∈ h.names) (hfuel : h.size + 1 ≤ pending.length + fuel) :
    h.Visits s c (h.visit fuel s c) := by
  induction fuel generalizing pending s c with
  | zero =>
      have hlen := (hnodup.subperm hsub).length_le
      simp only [names, List.length_map] at hlen
      simp only [size] at hfuel
      omega
  | succ fuel ih =>
      rw [visit]
      split
      · rename_i hin
        exact .again hin
      · rename_i hnew
        cases hp : h.parent? c with
        | none => exact .alone hnew (by simp [hp])
        | some p =>
            by_cases hmem : p ∈ h.names
            · simp only [has_iff.mpr hmem, if_true]
              have hnodup' : (c :: pending).Nodup :=
                List.nodup_cons.mpr ⟨fun hin => hnew (hmet hin), hnodup⟩
              refine .behind hnew hp hmem (ih hnodup' ?_ ?_ hmem ?_)
              · exact List.cons_subset.mpr ⟨hc, hsub⟩
              · exact List.cons_subset_cons c hmet
              · simp only [List.length_cons]
                omega
            · simp only [has_iff.not.mpr hmem]
              refine .alone hnew fun q hq => ?_
              rwa [← Option.some.inj (hp.symm.trans hq)]

theorem visitsAll_foldl {cs : List Name} (hcs : cs ⊆ h.names) (s : Visit) :
    h.VisitsAll s cs (cs.foldl (h.visit (h.size + 1)) s) := by
  induction cs generalizing s with
  | nil => exact .nil
  | cons c cs ih =>
      obtain ⟨hc, hrest⟩ := List.cons_subset.mp hcs
      exact .cons (visits_visit List.nodup_nil (List.nil_subset _) (List.nil_subset _) hc (by simp))
        (ih hrest _)

theorem Visits.unique {s s₁ s₂ : Visit} {c : Name} (h₁ : h.Visits s c s₁)
    (h₂ : h.Visits s c s₂) : s₁ = s₂ := by
  induction h₁ generalizing s₂ with
  | again hin =>
      cases h₂ with
      | again => rfl
      | alone hnew | behind hnew => exact absurd hin hnew
  | alone hnew hnone =>
      cases h₂ with
      | again hin => exact absurd hin hnew
      | alone => rfl
      | behind _ hp hmem => exact absurd hmem (hnone _ hp)
  | behind hnew hp hmem _ ih =>
      cases h₂ with
      | again hin => exact absurd hin hnew
      | alone _ hnone => exact absurd hmem (hnone _ hp)
      | behind _ hp' _ hup =>
          obtain rfl := Option.some.inj (hp.symm.trans hp')
          rw [ih hup]

theorem VisitsAll.unique {s s₁ s₂ : Visit} {cs : List Name} (h₁ : h.VisitsAll s cs s₁)
    (h₂ : h.VisitsAll s cs s₂) : s₁ = s₂ := by
  induction h₁ with
  | nil =>
      cases h₂
      rfl
  | cons hc _ ih =>
      cases h₂ with
      | cons hc' hcs =>
          obtain rfl := hc.unique hc'
          exact ih hcs

theorem visitsAll_topological (h : Hierarchy) :
    h.VisitsAll {} h.names (h.names.foldl (h.visit (h.size + 1)) {}) :=
  visitsAll_foldl (List.Subset.refl _) {}

/-- The visits end, and the topological order is where they end. -/
theorem sortsTo_iff {order : List Name} : h.SortsTo order ↔ order = h.topological := by
  constructor
  · rintro ⟨met, hall⟩
    exact congrArg Visit.order (hall.unique h.visitsAll_topological)
  · rintro rfl
    exact ⟨_, h.visitsAll_topological⟩

/-! ## Order -/

theorem ParentsFirstOffCycles.append_singleton {order : List Name}
    (ho : h.ParentsFirstOffCycles order) {c : Name}
    (hc : ¬ h.OnCycle c → ∀ p, h.parent? c = some p → p ∈ h.names → p ∈ order) :
    h.ParentsFirstOffCycles (order ++ [c]) := by
  intro before d after heq hcycle p hp hmem
  rcases List.eq_nil_or_concat after with rfl | ⟨after', last, rfl⟩
  · obtain ⟨rfl, hd⟩ := List.append_inj' heq rfl
    simp only [List.cons.injEq, and_true] at hd
    subst hd
    exact hc hcycle p hp hmem
  · rw [List.concat_eq_append, ← List.cons_append, ← List.append_assoc] at heq
    exact ho before d after' (List.append_inj' heq rfl).1 hcycle p hp hmem

/-- What holds between visits: the classes in order are those met, apart from the classes whose
visit is still going on. -/
structure Visit.Orderly (h : Hierarchy) (pending : List Name) (s : Visit) : Prop where
  nodup : s.order.Nodup
  sub : ∀ c ∈ s.order, c ∈ h.names
  met_iff : ∀ c, c ∈ s.met ↔ c ∈ s.order ∨ c ∈ pending
  apart : ∀ c ∈ pending, c ∉ s.order
  parents : h.ParentsFirstOffCycles s.order

namespace Visit.Orderly

variable {pending : List Name} {s : Visit} {c : Name}

theorem empty (h : Hierarchy) : ({} : Visit).Orderly h [] :=
  ⟨List.nodup_nil, by simp, by simp, by simp, by simp [ParentsFirstOffCycles]⟩

/-- The start of a visit: the class is marked. -/
theorem mark (hs : s.Orderly h pending) (hnew : c ∉ s.met) :
    Visit.Orderly h (c :: pending) ⟨c :: s.met, s.order⟩ := by
  refine ⟨hs.nodup, hs.sub, ?_, ?_, hs.parents⟩
  · intro d
    have hd := hs.met_iff d
    simp only [List.mem_cons]
    tauto
  · intro d hd
    rcases List.mem_cons.mp hd with rfl | hd
    · exact fun hin => hnew ((hs.met_iff d).mpr (Or.inl hin))
    · exact hs.apart d hd

/-- The end of a visit: the class goes in order after its parent. -/
theorem finish (hs : s.Orderly h (c :: pending)) (hc : c ∈ h.names) (hnot : c ∉ pending)
    (hparent : ¬ h.OnCycle c → ∀ p, h.parent? c = some p → p ∈ h.names → p ∈ s.order) :
    Visit.Orderly h pending ⟨s.met, s.order ++ [c]⟩ := by
  have hnew : c ∉ s.order := hs.apart c List.mem_cons_self
  refine ⟨?_, ?_, ?_, ?_, hs.parents.append_singleton hparent⟩
  · exact List.Nodup.append hs.nodup (List.nodup_singleton c) (List.disjoint_singleton.mpr hnew)
  · intro d hd
    rcases List.mem_append.mp hd with hd | hd
    · exact hs.sub d hd
    · rw [List.mem_singleton.mp hd]
      exact hc
  · intro d
    rw [hs.met_iff d]
    simp only [List.mem_cons, List.mem_append, List.not_mem_nil, or_false]
    tauto
  · intro d hd hin
    rcases List.mem_append.mp hin with hin | hin
    · exact hs.apart d (List.mem_cons_of_mem c hd) hin
    · exact hnot (List.mem_singleton.mp hin ▸ hd)

end Visit.Orderly

/-- A visit puts a class in order after what is there already. The classes whose visit is going on
lie below the class, so where its parent is one of them the class lies on a cycle. -/
theorem Visits.orderly {pending : List Name} {s s' : Visit} {c : Name} (hv : h.Visits s c s')
    (hs : s.Orderly h pending) (hc : c ∈ h.names)
    (hpending : ∀ d ∈ pending, TransGen (fun c p => h.parent? c = some p) d c) :
    s'.Orderly h pending ∧ s.order <+: s'.order ∧ (c ∈ s'.order ∨ c ∈ pending) := by
  induction hv generalizing pending with
  | again hin => exact ⟨hs, List.prefix_refl _, (hs.met_iff _).mp hin⟩
  | alone hnew hnone =>
      have hnot := fun hin => hnew ((hs.met_iff _).mpr (Or.inr hin))
      have hend := (hs.mark hnew).finish hc hnot fun _ p hp hmem => absurd hmem (hnone p hp)
      exact ⟨hend, List.prefix_append _ _, by simp⟩
  | @behind s s' c p hnew hp hmem _ ih =>
      have hnot := fun hin => hnew ((hs.met_iff c).mpr (Or.inr hin))
      have hbelow : ∀ d ∈ c :: pending, TransGen (fun c p => h.parent? c = some p) d p :=
        List.forall_mem_cons.mpr ⟨.single hp, fun d hd => (hpending d hd).tail hp⟩
      obtain ⟨hup, hprefix, hin⟩ := ih (hs.mark hnew) hmem hbelow
      have hend := hup.finish hc hnot (by
        intro hcycle q hq _
        obtain rfl := Option.some.inj (hp.symm.trans hq)
        refine hin.resolve_right fun hpend => hcycle ?_
        rcases List.mem_cons.mp hpend with rfl | hpend
        · exact .single hp
        · exact .head hp (hpending p hpend))
      exact ⟨hend, hprefix.trans (List.prefix_append _ _), by simp⟩

/-- Visiting classes one after the other puts each of them in order. -/
theorem VisitsAll.orderly {s s' : Visit} {cs : List Name} (hv : h.VisitsAll s cs s')
    (hs : s.Orderly h []) (hcs : cs ⊆ h.names) :
    s'.Orderly h [] ∧ s.order <+: s'.order ∧ cs ⊆ s'.order := by
  induction hv with
  | nil => exact ⟨hs, List.prefix_refl _, List.nil_subset _⟩
  | cons hc _ ih =>
      obtain ⟨hmem, hrest⟩ := List.cons_subset.mp hcs
      obtain ⟨hnext, hprefix, hin⟩ := hc.orderly hs hmem (by simp)
      obtain ⟨hend, hprefix', hall⟩ := ih hnext hrest
      refine ⟨hend, hprefix.trans hprefix', List.cons_subset.mpr ⟨?_, hall⟩⟩
      exact hprefix'.subset (hin.resolve_right List.not_mem_nil)

theorem orderly_topological (h : Hierarchy) :
    (h.names.foldl (h.visit (h.size + 1)) {}).Orderly h [] ∧ h.names ⊆ h.topological := by
  obtain ⟨hend, -, hall⟩ :=
    h.visitsAll_topological.orderly (Visit.Orderly.empty h) (List.Subset.refl _)
  exact ⟨hend, hall⟩

theorem topological_parentsFirstOffCycles (h : Hierarchy) :
    h.ParentsFirstOffCycles h.topological :=
  h.orderly_topological.1.parents

theorem topological_perm (hn : h.names.Nodup) : h.topological.Perm h.names := by
  obtain ⟨hend, hall⟩ := h.orderly_topological
  exact (List.perm_ext_iff_of_nodup hend.nodup hn).mpr fun c => ⟨hend.sub c, fun hc => hall hc⟩

/-- Classes that are listed with parents first are put in that order. -/
theorem visitsAll_of_parentsFirst (done : List Name) {cs : List Name}
    (hfirst : h.ParentsFirst (done ++ cs)) (hnodup : (done ++ cs).Nodup) :
    h.VisitsAll ⟨done.reverse, done⟩ cs ⟨(done ++ cs).reverse, done ++ cs⟩ := by
  induction cs generalizing done with
  | nil =>
      rw [List.append_nil]
      exact .nil
  | cons c cs ih =>
      have hnew : c ∉ done.reverse := by
        rw [List.mem_reverse]
        exact fun hin => (List.nodup_append.mp hnodup).2.2 _ hin _ List.mem_cons_self rfl
      have hvisit : h.Visits ⟨done.reverse, done⟩ c ⟨(done ++ [c]).reverse, done ++ [c]⟩ := by
        rw [List.reverse_append, List.reverse_singleton, List.singleton_append]
        by_cases hup : ∃ p, h.parent? c = some p ∧ p ∈ h.names
        · obtain ⟨p, hp, hmem⟩ := hup
          have hin : p ∈ c :: done.reverse :=
            List.mem_cons_of_mem _ (List.mem_reverse.mpr (hfirst done c cs rfl p hp))
          exact .behind hnew hp hmem (.again hin)
        · exact .alone hnew fun p hp hmem => hup ⟨p, hp, hmem⟩
      rw [List.append_cons] at hfirst hnodup ⊢
      exact .cons hvisit (ih (done ++ [c]) hfirst hnodup)

/-! ## Trees -/

theorem depth_lt_of_transGen (hr : Rooted h) {c d : Name}
    (hcd : TransGen (fun c p => h.parent? c = some p) c d) : h.depth d < h.depth c := by
  obtain ⟨p, hp, hpd⟩ := TransGen.head'_iff.mp hcd
  have hparent := depth_parent hr hp
  have hle : h.depth d ≤ h.depth p := Inherits.depth_le hr hpd
  omega

theorem not_onCycle (hr : Rooted h) (c : Name) : ¬ h.OnCycle c :=
  fun hcycle => Nat.lt_irrefl _ (depth_lt_of_transGen hr hcycle)

theorem topological_nodup (hr : Rooted h) : h.topological.Nodup :=
  (topological_perm hr.names_nodup).nodup_iff.mpr hr.names_nodup

theorem mem_topological (hr : Rooted h) {c : Name} : c ∈ h.topological ↔ c ∈ h.names :=
  (topological_perm hr.names_nodup).mem_iff

theorem topological_parentsFirst (hr : Rooted h) : h.ParentsFirst h.topological :=
  fun before c after heq p hp => h.topological_parentsFirstOffCycles before c after heq
    (not_onCycle hr c) p hp (hr.parent_mem hp)

end Cool.Hierarchy
