import Cool.Lowering.Expr
import Mathlib.Data.List.Forall2

/-! Whether lowering succeeds never depends on the functions lowered so far: every step either
succeeds from all states or faults in all of them. -/

namespace Cool.Lowering

variable {α β : Type}

theorem mapM_eq_ok_iff {ε : Type} {f : α → Except ε β} {as : List α} {bs : List β} :
    as.mapM f = .ok bs ↔ List.Forall₂ (fun a b => f a = .ok b) as bs := by
  induction as generalizing bs with
  | nil =>
      rw [List.mapM_nil, List.forall₂_nil_left_iff]
      exact ⟨fun h => (Except.ok.inj h).symm, fun h => h ▸ rfl⟩
  | cons a as ih =>
      rw [List.mapM_cons, List.forall₂_cons_left_iff]
      constructor
      · intro h
        cases ha : f a with
        | error e =>
            rw [ha] at h
            cases h
        | ok b =>
            cases hrest : as.mapM f with
            | error e =>
                rw [ha, hrest] at h
                cases h
            | ok rest =>
                rw [ha, hrest] at h
                cases h
                exact ⟨b, rest, rfl, ih.mp hrest, rfl⟩
      · rintro ⟨b, rest, hb, hrest, rfl⟩
        rw [hb, ih.mpr hrest]
        rfl

theorem exists_mapM_ok_iff {ε : Type} {f : α → Except ε β} {as : List α} :
    (∃ bs, as.mapM f = .ok bs) ↔ ∀ a ∈ as, ∃ b, f a = .ok b := by
  induction as with
  | nil => simp [pure, Except.pure]
  | cons a as ih =>
      rw [List.forall_mem_cons, ← ih]
      simp only [mapM_eq_ok_iff, List.forall₂_cons_left_iff]
      constructor
      · rintro ⟨_, b, bs, hb, hbs, -⟩
        exact ⟨⟨b, hb⟩, bs, hbs⟩
      · rintro ⟨⟨b, hb⟩, bs, hbs⟩
        exact ⟨_, b, bs, hb, hbs, rfl⟩

/-- A step that succeeds from every state. -/
def Succeeds (x : Lower α) : Prop :=
  ∀ s, ∃ r, x s = .ok r

/-- A step that succeeds from every state if a condition holds, and faults in every state if it does
not. -/
structure Settles (x : Lower α) (P : Prop) : Prop where
  ok : P → Succeeds x
  fault : ¬ P → ∀ s, ∃ f, x s = .error f

namespace Settles

theorem congr {x : Lower α} {P Q : Prop} (hx : Settles x P) (hpq : P ↔ Q) : Settles x Q :=
  ⟨fun hq => hx.ok (hpq.mpr hq), fun hq => hx.fault fun hp => hq (hpq.mp hp)⟩

theorem succeeds_iff {x : Lower α} {P : Prop} (hx : Settles x P) : Succeeds x ↔ P := by
  refine ⟨fun hs => Classical.byContradiction fun hp => ?_, hx.ok⟩
  obtain ⟨r, hr⟩ := hs {}
  obtain ⟨f, hf⟩ := hx.fault hp {}
  cases hr.symm.trans hf

theorem pure (a : α) : Settles (pure a) True :=
  ⟨fun _ _ => ⟨_, rfl⟩, fun h => absurd trivial h⟩

theorem fail (f : Fault) : Settles (fail f : Lower α) False :=
  ⟨False.elim, fun _ _ => ⟨f, rfl⟩⟩

/-- The second step is needed only where the first one succeeds. -/
theorem bind_of {x : Lower α} {f : α → Lower β} {P Q : Prop} (hx : Settles x P)
    (hf : P → ∀ a, Settles (f a) Q) : Settles (x >>= f) (P ∧ Q) := by
  have hrun : ∀ s, (x >>= f) s = (x s >>= fun r => f r.1 r.2) := fun _ => rfl
  constructor
  · rintro ⟨hp, hq⟩ s
    obtain ⟨r, hr⟩ := hx.ok hp s
    rw [hrun, hr]
    exact (hf hp r.1).ok hq r.2
  · intro hnot s
    rw [hrun]
    by_cases hp : P
    · obtain ⟨r, hr⟩ := hx.ok hp s
      rw [hr]
      exact (hf hp r.1).fault (fun hq => hnot ⟨hp, hq⟩) r.2
    · obtain ⟨e, he⟩ := hx.fault hp s
      rw [he]
      exact ⟨e, rfl⟩

theorem bind {x : Lower α} {f : α → Lower β} {P Q : Prop} (hx : Settles x P)
    (hf : ∀ a, Settles (f a) Q) : Settles (x >>= f) (P ∧ Q) :=
  hx.bind_of fun _ => hf

theorem map {x : Lower α} {P : Prop} (hx : Settles x P) (g : α → β) : Settles (g <$> x) P := by
  have hrun : ∀ s, (g <$> x) s = (x s >>= fun r => Except.ok (g r.1, r.2)) := fun _ => rfl
  constructor
  · intro hp s
    obtain ⟨r, hr⟩ := hx.ok hp s
    rw [hrun, hr]
    exact ⟨_, rfl⟩
  · intro hp s
    obtain ⟨f, hf⟩ := hx.fault hp s
    rw [hrun, hf]
    exact ⟨f, rfl⟩

/-- A step that reads no state. -/
theorem lift (x : Except Fault α) : Settles (liftM x : Lower α) (∃ a, x = .ok a) := by
  cases x with
  | ok a => exact ⟨fun _ s => ⟨(a, s), rfl⟩, fun h => absurd ⟨a, rfl⟩ h⟩
  | error f =>
      refine ⟨?_, fun _ _ => ⟨f, rfl⟩⟩
      rintro ⟨a, ha⟩
      cases ha

/-- A step that reads no state and succeeds. -/
theorem lift_bind {x : Except Fault α} {a : α} (hx : x = .ok a) {f : α → Lower β} {P : Prop}
    (hf : Settles (f a) P) : Settles ((liftM x : Lower α) >>= f) P := by
  subst hx
  exact ⟨hf.ok, hf.fault⟩

theorem lift_error_bind {x : Except Fault α} {e : Fault} (hx : x = .error e)
    (f : α → Lower β) : Settles ((liftM x : Lower α) >>= f) False := by
  subst hx
  exact ⟨False.elim, fun _ _ => ⟨e, rfl⟩⟩

theorem freshTemp (t : Wat.ValType) : Settles (freshTemp t) True :=
  ⟨fun _ _ => ⟨_, rfl⟩, fun h => absurd trivial h⟩

theorem freshLabel (kind : String) : Settles (freshLabel kind) True :=
  ⟨fun _ _ => ⟨_, rfl⟩, fun h => absurd trivial h⟩

theorem noteAssigned (xs : List Name) : Settles (noteAssigned xs) True :=
  ⟨fun _ _ => ⟨_, rfl⟩, fun h => absurd trivial h⟩

theorem liftedName (cls : Name) (kind : String) : Settles (liftedName cls kind) True :=
  ⟨fun _ _ => ⟨_, rfl⟩, fun h => absurd trivial h⟩

theorem emit (f : Wat.Func) : Settles (emit f) True :=
  ⟨fun _ _ => ⟨_, rfl⟩, fun h => absurd trivial h⟩

theorem forM {f : α → Lower Unit} {P : α → Prop} {as : List α}
    (hf : ∀ a ∈ as, Settles (f a) (P a)) : Settles (as.forM f) (∀ a ∈ as, P a) := by
  induction as with
  | nil => exact (pure ()).congr (by simp)
  | cons a as ih =>
      obtain ⟨ha, hrest⟩ := List.forall_mem_cons.mp hf
      exact (ha.bind fun _ => ih hrest).congr List.forall_mem_cons.symm

theorem inFrame {x : Lower α} {P : Prop} (hx : Settles x P) (frame : Frame) :
    Settles (Lowering.inFrame frame x) P := by
  have hrun : ∀ s, Lowering.inFrame frame x s = (x { s with frame := frame } >>= fun r =>
      Except.ok ((r.1, r.2.frame), { r.2 with frame := s.frame })) := fun _ => rfl
  constructor
  · intro hp s
    obtain ⟨r, hr⟩ := hx.ok hp { s with frame := frame }
    rw [hrun, hr]
    exact ⟨_, rfl⟩
  · intro hp s
    obtain ⟨f, hf⟩ := hx.fault hp { s with frame := frame }
    rw [hrun, hf]
    exact ⟨f, rfl⟩

end Settles

end Cool.Lowering
