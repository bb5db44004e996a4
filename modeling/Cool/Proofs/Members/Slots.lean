import Cool.Proofs.Members.Inheritance

/-! Slots. Whatever was reported, the members of a class begin with those of its parent, in the same
slots and with the same interfaces, and every new member takes the next free slot of the program. -/

namespace Cool

/-! ## Slots in a row -/

/-- The numbers from `a` up to `b`, in order. -/
def Consecutive (a b : Nat) (slots : List Nat) : Prop :=
  a ≤ b ∧ slots = List.range' a (b - a)

namespace Consecutive

variable {a b c : Nat} {slots others : List Nat}

theorem nil (a : Nat) : Consecutive a a [] := by
  simp [Consecutive]

theorem append (hab : Consecutive a b slots) (hbc : Consecutive b c others) :
    Consecutive a c (slots ++ others) := by
  obtain ⟨hle, rfl⟩ := hab
  obtain ⟨hle', rfl⟩ := hbc
  refine ⟨Nat.le_trans hle hle', ?_⟩
  have hstart : b = a + 1 * (b - a) := by omega
  have hlen : c - a = b - a + (c - b) := by omega
  rw [hlen, ← List.range'_append, ← hstart]

theorem push (hab : Consecutive a b slots) : Consecutive a (b + 1) (slots ++ [b]) :=
  hab.append ⟨Nat.le_succ b, by simp⟩

theorem mem_iff (hab : Consecutive a b slots) {i : Nat} : i ∈ slots ↔ a ≤ i ∧ i < b := by
  obtain ⟨hle, rfl⟩ := hab
  rw [List.mem_range'_1]
  omega

theorem pairwise (hab : Consecutive a b slots) : slots.Pairwise (· < ·) := by
  obtain ⟨-, rfl⟩ := hab
  exact List.pairwise_lt_range'

/-- Slots in a row can follow any that lie below them. -/
theorem pairwise_append (hab : Consecutive a b slots) (hothers : others.Pairwise (· < ·))
    (hbelow : ∀ i ∈ others, i < a) :
    (others ++ slots).Pairwise (· < ·) ∧ ∀ i ∈ others ++ slots, i < b := by
  refine ⟨List.pairwise_append.mpr ⟨hothers, hab.pairwise, fun i hi j hj => ?_⟩, fun i hi => ?_⟩
  · exact Nat.lt_of_lt_of_le (hbelow i hi) (hab.mem_iff.mp hj).1
  · rcases List.mem_append.mp hi with hi | hi
    · exact Nat.lt_of_lt_of_le (hbelow i hi) hab.1
    · exact (hab.mem_iff.mp hi).2

theorem eq_range (hab : Consecutive 0 b slots) : slots = List.range b := by
  obtain ⟨-, rfl⟩ := hab
  rw [Nat.sub_zero, List.range_eq_range']

end Consecutive

/-- Sorting what has slots that increase gives it back, in whatever order it comes. -/
theorem eq_of_perm_of_increasing {α : Type} {slot : α → Nat} {members l : List α}
    (hmembers : (members.map slot).Pairwise (· < ·)) (hl : l.Perm members)
    (hsorted : (l.map slot).Pairwise (· ≤ ·)) : l = members := by
  have hnodup : (l.map slot).Nodup := (hl.map slot).nodup_iff.mpr (hmembers.imp Nat.ne_of_lt)
  refine hl.eq_of_pairwise (fun x y hx hy hxy hyx => ?_) (List.pairwise_map.mp hsorted)
    ((List.pairwise_map.mp hmembers).imp Nat.le_of_lt)
  exact List.inj_on_of_nodup_map hnodup hx (hl.mem_iff.mpr hy) (Nat.le_antisymm hxy hyx)

/-- What calls of a method depend on. -/
def MethodEntry.interface (m : MethodEntry) :
    Name × Nat × Name × List Name × Name × String × String :=
  (m.name, m.slot, m.intro, m.params.map (·.type), m.result, m.signatureId, m.genericId)

namespace Members.Site

variable {site : Site}

/-! ## One feature -/

/-- What a feature can do to the draft of its class. -/
inductive Step (site : Site) (draft : Draft) : Draft → Prop where
  | refused (rs : List (Report Problem)) :
      Step site draft { draft with reports := draft.reports ++ rs }
  | owned (a : Attribute) (rs : List (Report Problem)) :
      a.name ∉ draft.attributes.map (·.name) → site.inheritedAttribute? a.name = none →
      Step site draft
        { draft with
          attributes := draft.attributes ++
            [⟨a.name, a.type, draft.attributeCount, site.cls, a.span⟩]
          attributeCount := draft.attributeCount + 1
          reports := draft.reports ++ rs }
  | introduced (m : Method) (params : List Parameter) (rs : List (Report Problem)) :
      m.name ∉ draft.methods.map (·.name) → site.inheritedMethod? m.name = none →
      Step site draft
        { draft with
          methods := draft.methods ++ [⟨m.name, params, m.result, .introduced, draft.methodCount,
            site.cls, site.cls, m.span⟩]
          methodCount := draft.methodCount + 1
          reports := draft.reports ++ rs }
  | overridden (m : Method) (params : List Parameter) (o : MethodEntry)
      (rs : List (Report Problem)) :
      m.name ∉ draft.methods.map (·.name) → site.inheritedMethod? m.name = some o →
      params.map (·.type) = o.params.map (·.type) → m.result = o.result →
      Step site draft
        { draft with
          methods := draft.methods ++ [⟨m.name, params, m.result, .overridden, o.slot, o.intro,
            site.cls, m.span⟩]
          reports := draft.reports ++ rs }

/-- An accepted override repeats the types of the method it overrides, even if some of its formals
were refused. -/
theorem repeats_of_no_mismatch {m : Method} {params : List Parameter} {o : MethodEntry}
    (hnone : mismatches m params o = []) (hlen : params.length = o.params.length) :
    params.map (·.type) = o.params.map (·.type) ∧ m.result = o.result := by
  unfold mismatches at hnone
  split at hnone
  · cases hnone
  · obtain ⟨hargs, hresult⟩ := List.append_eq_nil_iff.mp hnone
    refine ⟨argumentMismatches_eq_nil hlen hargs, ?_⟩
    by_contra hne
    simp [hne] at hresult

theorem step_addAttribute (draft : Draft) (a : Attribute) :
    site.Step draft (site.addAttribute draft a) := by
  unfold addAttribute
  cases hr : site.refusal? draft a with
  | some problem => exact .refused [⟨a.span, problem⟩]
  | none =>
      obtain ⟨hinherited, -, hnew⟩ := refusal?_eq_none hr
      dsimp only
      split
      · simpa using Step.owned a [] hnew hinherited
      · exact .owned a _ hnew hinherited

theorem step_addMethod (draft : Draft) (m : Method) :
    site.Step draft (site.addMethod draft m) := by
  unfold addMethod
  split
  · exact .refused _
  · rename_i hdup
    have hnew : m.name ∉ draft.methods.map (·.name) := by simpa using hdup
    dsimp only
    split
    · cases ho : site.inheritedMethod? m.name with
      | none => exact .introduced m _ _ hnew ho
      | some o =>
          dsimp only [override]
          split
          · rename_i hmatch
            rw [Bool.and_eq_true, List.isEmpty_iff, beq_iff_eq] at hmatch
            obtain ⟨htypes, hresult⟩ := repeats_of_no_mismatch hmatch.1 hmatch.2
            exact .overridden m _ o _ hnew ho htypes hresult
          · rw [List.append_assoc]
            exact .refused _
    · rw [List.append_assoc]
      exact .refused _

theorem step_addFeature (draft : Draft) (f : Feature) :
    site.Step draft (site.addFeature draft f) := by
  cases f with
  | attr a => exact step_addAttribute draft a
  | method m => exact step_addMethod draft m

/-! ## The features of a class -/

/-- The entry of a method that a class declares: it is new, or it repeats the interface of the
method it overrides. -/
inductive Fits (site : Site) (m : MethodEntry) : Prop where
  | introduced : m.origin = .introduced → m.intro = site.cls → m.definer = site.cls →
      site.inheritedMethod? m.name = none → Fits site m
  | overridden (o : MethodEntry) : m.origin = .overridden → m.definer = site.cls →
      site.inheritedMethod? m.name = some o → m.interface = o.interface → Fits site m

/-- The slots that the methods introduced among some take. -/
def newSlots (methods : List MethodEntry) : List Nat :=
  (methods.filter (·.origin = .introduced)).map (·.slot)

/-- A draft whose new members take the slots from `a` and `k` on. -/
structure Numbered (site : Site) (a k : Nat) (draft : Draft) : Prop where
  attributes : Consecutive a draft.attributeCount (draft.attributes.map (·.slot))
  owner : ∀ e ∈ draft.attributes, e.owner = site.cls
  methods : Consecutive k draft.methodCount (newSlots draft.methods)
  fits : ∀ m ∈ draft.methods, site.Fits m
  names_nodup : (draft.methods.map (·.name)).Nodup

theorem numbered_start (site : Site) (a k : Nat) :
    site.Numbered a k { attributeCount := a, methodCount := k } :=
  ⟨.nil a, by simp, .nil k, by simp, List.nodup_nil⟩

theorem names_nodup_append {methods : List MethodEntry} {e : MethodEntry}
    (hnodup : (methods.map (·.name)).Nodup) (hnew : e.name ∉ methods.map (·.name)) :
    ((methods ++ [e]).map (·.name)).Nodup := by
  rw [List.map_append]
  exact hnodup.append (List.nodup_singleton _) (List.disjoint_singleton.mpr hnew)

theorem Numbered.step {a k : Nat} {draft draft' : Draft} (hd : site.Numbered a k draft)
    (hs : site.Step draft draft') : site.Numbered a k draft' := by
  cases hs with
  | refused rs => exact ⟨hd.attributes, hd.owner, hd.methods, hd.fits, hd.names_nodup⟩
  | owned b rs hnew hnone =>
      refine ⟨?_, ?_, hd.methods, hd.fits, hd.names_nodup⟩
      · rw [List.map_append]
        exact hd.attributes.push
      · simpa using fun e he => he.elim (hd.owner e) fun heq => heq ▸ rfl
  | introduced m params rs hnew hnone =>
      refine ⟨hd.attributes, hd.owner, ?_, ?_, names_nodup_append hd.names_nodup hnew⟩
      · have hslots := hd.methods.push
        simpa [newSlots] using hslots
      · refine List.forall_mem_append.mpr ⟨hd.fits, ?_⟩
        exact List.forall_mem_singleton.mpr (.introduced rfl rfl rfl hnone)
  | overridden m params o rs hnew hsome htypes hresult =>
      refine ⟨hd.attributes, hd.owner, ?_, ?_, names_nodup_append hd.names_nodup hnew⟩
      · have hslots := hd.methods
        simpa [newSlots] using hslots
      · refine List.forall_mem_append.mpr ⟨hd.fits, List.forall_mem_singleton.mpr ?_⟩
        have hname : o.name = m.name := by
          obtain ⟨own, -, hfind⟩ := Option.bind_eq_some_iff.mp hsome
          simpa using List.find?_some hfind
        refine .overridden o rfl rfl hsome ?_
        simp [MethodEntry.interface, MethodEntry.signatureId, MethodEntry.genericId, hname, htypes,
          hresult]

theorem Numbered.foldl {a k : Nat} {draft : Draft} (hd : site.Numbered a k draft)
    (features : List Feature) : site.Numbered a k (features.foldl site.addFeature draft) := by
  induction features generalizing draft with
  | nil => exact hd
  | cons f features ih => exact ih (hd.step (step_addFeature draft f))

/-- The inherited methods that a class does not declare itself, as it takes them over. -/
def keptMethods (inherited own : List MethodEntry) : List MethodEntry :=
  (inherited.filter fun m => m.name ∉ own.map (·.name)).map fun m => { m with origin := .inherited }

theorem mem_keptMethods {inherited own : List MethodEntry} {m : MethodEntry} :
    m ∈ keptMethods inherited own ↔
      ∃ i ∈ inherited, i.name ∉ own.map (·.name) ∧ { i with origin := .inherited } = m := by
  simp only [keptMethods, List.mem_map, List.mem_filter, decide_eq_true_eq, and_assoc]

theorem keptMethods_names (inherited own : List MethodEntry) :
    (keptMethods inherited own).map (·.name) =
      (inherited.filter fun m => m.name ∉ own.map (·.name)).map (·.name) := by
  rw [keptMethods, List.map_map]
  rfl

end Members.Site

/-! ## The members of one class -/

/-- How the entry of a method in a class comes from the one in its parent: it is taken over, or the
class has a body of its own behind the same interface. -/
inductive MethodEntry.Descends (c : Name) (m : MethodEntry) : MethodEntry → Prop where
  | inherited : Descends c m { m with origin := .inherited }
  | overridden {e : MethodEntry} : e.origin = .overridden → e.definer = c →
      e.interface = m.interface → Descends c m e

namespace MethodEntry.Descends

variable {c : Name} {m e : MethodEntry}

theorem interface_eq (he : Descends c m e) : e.interface = m.interface := by
  cases he with
  | inherited => rfl
  | overridden _ _ hsame => exact hsame

theorem not_introduced (he : Descends c m e) : e.origin ≠ .introduced := by
  cases he with
  | inherited => exact nofun
  | overridden horigin _ _ => simp [horigin]

/-- Entries that descend from others show the same of themselves. -/
theorem map_eq {β : Type} {ms es : List MethodEntry} (hes : List.Forall₂ (Descends c) ms es)
    {view : MethodEntry → β} (hview : ∀ m e, e.interface = m.interface → view e = view m) :
    es.map view = ms.map view := by
  induction hes with
  | nil => rfl
  | cons he _ ih => rw [List.map_cons, List.map_cons, ih, hview _ _ he.interface_eq]

end MethodEntry.Descends

/-- Members in the order of their slots, which lie below `a` and `k`. The classes that own the
attributes are among `owners`. -/
structure ClassMembers.Ordered (own : ClassMembers) (a k : Nat) (owners : List Name) : Prop where
  attributes : (own.attributes.map (·.slot)).Pairwise (· < ·)
  attributes_lt : ∀ i ∈ own.attributes.map (·.slot), i < a
  owners : ∀ e ∈ own.attributes, e.owner ∈ owners
  methods : (own.methods.map (·.slot)).Pairwise (· < ·)
  methods_lt : ∀ i ∈ own.methods.map (·.slot), i < k
  names_nodup : (own.methods.map (·.name)).Nodup

theorem ClassMembers.ordered_empty (c : Name) (a k : Nat) (owners : List Name) :
    ({ cls := c } : ClassMembers).Ordered a k owners := by
  constructor <;> simp

theorem ClassMembers.Ordered.mono {own : ClassMembers} {a a' k k' : Nat}
    {owners owners' : List Name} (ho : own.Ordered a k owners) (ha : a ≤ a') (hk : k ≤ k')
    (howners : owners ⊆ owners') : own.Ordered a' k' owners' where
  attributes := ho.attributes
  attributes_lt i hi := Nat.lt_of_lt_of_le (ho.attributes_lt i hi) ha
  owners e he := howners (ho.owners e he)
  methods := ho.methods
  methods_lt i hi := Nat.lt_of_lt_of_le (ho.methods_lt i hi) hk
  names_nodup := ho.names_nodup

/-- The slots of the attributes that a class declares itself. -/
def ClassMembers.ownSlots (own : ClassMembers) : List Nat :=
  (own.attributes.filter (·.owner = own.cls)).map (·.slot)

namespace Members

variable {ms : Members} {c : Name} {a k : Nat} {draft : Draft} {owners : List Name}

theorem inheritedMethod?_siteOf (ms : Members) (c x : Name) :
    (ms.siteOf c).inheritedMethod? x = (ms.inherited c).methods.find? (·.name = x) := by
  unfold inherited Site.inheritedMethod?
  cases (ms.siteOf c).parent? with
  | none => rfl
  | some p => rfl

/-- The methods of a class are those of its parent, taken over or overridden, and then the ones it
introduces. -/
theorem exists_descends (hd : (ms.siteOf c).Numbered a k draft)
    (hnodup : ((ms.inherited c).methods.map (·.name)).Nodup) :
    ∃ es, List.Forall₂ (MethodEntry.Descends c) (ms.inherited c).methods es ∧
      (ms.membersOf c draft).methods = es ++ draft.methods.filter (·.origin = .introduced) := by
  refine ⟨_, ?_, rfl⟩
  rw [List.forall₂_map_right_iff, List.forall₂_same]
  intro i hi
  cases hfind : draft.methods.find? (·.name = i.name) with
  | none => exact .inherited
  | some e =>
      have hname : e.name = i.name := by simpa using List.find?_some hfind
      have hinherited : (ms.siteOf c).inheritedMethod? e.name = some i := by
        rw [inheritedMethod?_siteOf, hname]
        exact find?_of_nodup_map hnodup hi
      -- the class inherits a method of this name, so its own one is an override of it
      cases hd.fits e (List.mem_of_find?_eq_some hfind) with
      | introduced _ _ _ hnone =>
          rw [hinherited] at hnone
          cases hnone
      | overridden o horigin hdefiner hsome hsame =>
          cases hinherited.symm.trans hsome
          exact .overridden horigin hdefiner hsame

theorem names_nodup_membersOf (hd : (ms.siteOf c).Numbered a k draft)
    (hnodup : ((ms.inherited c).methods.map (·.name)).Nodup) :
    ((ms.membersOf c draft).methods.map (·.name)).Nodup := by
  rw [membersOf, Site.allMethods_names]
  refine hnodup.append (hd.names_nodup.sublist (List.filter_sublist.map _)) ?_
  intro x hinherited hintroduced
  obtain ⟨e, he, rfl⟩ := List.mem_map.mp hintroduced
  obtain ⟨i, hi, hname⟩ := List.mem_map.mp hinherited
  obtain ⟨hemem, horigin⟩ := List.mem_filter.mp he
  cases hd.fits e hemem with
  | introduced _ _ _ hnone =>
      rw [inheritedMethod?_siteOf, List.find?_eq_none] at hnone
      exact hnone i hi (by simpa using hname)
  | overridden o hoverridden _ _ _ => simp [hoverridden] at horigin

/-- So they are the methods it declares and those it inherits and does not declare. -/
theorem methods_perm (hd : (ms.siteOf c).Numbered a k draft)
    (hnodup : ((ms.inherited c).methods.map (·.name)).Nodup) :
    (ms.membersOf c draft).methods.Perm
      (draft.methods ++ Site.keptMethods (ms.inherited c).methods draft.methods) := by
  have hnames : ((draft.methods ++ Site.keptMethods (ms.inherited c).methods draft.methods).map
      (·.name)).Nodup := by
    rw [List.map_append, Site.keptMethods_names]
    refine hd.names_nodup.append (hnodup.sublist (List.filter_sublist.map _)) ?_
    intro x hown hkept
    obtain ⟨i, hi, rfl⟩ := List.mem_map.mp hkept
    exact of_decide_eq_true (List.mem_filter.mp hi).2 hown
  refine (List.perm_ext_iff_of_nodup (names_nodup_membersOf hd hnodup).of_map
    hnames.of_map).mpr fun m => ?_
  rw [List.mem_append, Site.mem_keptMethods]
  constructor
  · intro hm
    rcases List.mem_append.mp hm with hm | hm
    · obtain ⟨i, hi, heq⟩ := List.mem_map.mp hm
      split at heq
      · rename_i o ho
        exact .inl (heq ▸ List.mem_of_find?_eq_some ho)
      · rename_i hnone
        refine .inr ⟨i, hi, fun hin => ?_, heq⟩
        obtain ⟨o, ho, hname⟩ := List.mem_map.mp hin
        exact List.find?_eq_none.mp hnone o ho (by simpa using hname)
    · exact .inl (List.mem_of_mem_filter hm)
  · rintro (hm | ⟨i, hi, hnew, rfl⟩)
    · cases hd.fits m hm with
      | introduced horigin _ _ _ =>
          exact List.mem_append_right _ (List.mem_filter.mpr ⟨hm, by simpa using horigin⟩)
      | overridden o _ _ hsome _ =>
          rw [inheritedMethod?_siteOf] at hsome
          have hname : o.name = m.name := by simpa using List.find?_some hsome
          refine List.mem_append_left _ (List.mem_map.mpr ⟨o, List.mem_of_find?_eq_some hsome, ?_⟩)
          rw [hname, find?_of_nodup_map hd.names_nodup hm]
    · refine List.mem_append_left _ (List.mem_map.mpr ⟨i, hi, ?_⟩)
      have hnone : draft.methods.find? (·.name = i.name) = none := by
        refine List.find?_eq_none.mpr fun o ho heq => hnew ?_
        exact List.mem_map.mpr ⟨o, ho, of_decide_eq_true heq⟩
      rw [hnone]

theorem newSlots_membersOf (hd : (ms.siteOf c).Numbered a k draft)
    (hnodup : ((ms.inherited c).methods.map (·.name)).Nodup) :
    Site.newSlots (ms.membersOf c draft).methods = Site.newSlots draft.methods := by
  obtain ⟨es, hes, heq⟩ := exists_descends hd hnodup
  have hnone : es.filter (·.origin = .introduced) = [] := by
    refine List.filter_eq_nil_iff.mpr fun e he => ?_
    obtain ⟨m, -, hme⟩ := Site.exists_left_of_forall₂ hes he
    simpa using hme.not_introduced
  simp [Site.newSlots, heq, hnone]

theorem ownSlots_membersOf (hd : (ms.siteOf c).Numbered a k draft)
    (ho : (ms.inherited c).Ordered a k owners) (hc : c ∉ owners) :
    (ms.membersOf c draft).ownSlots = draft.attributes.map (·.slot) := by
  have hinherited : (ms.inherited c).attributes.filter (·.owner = c) = [] := by
    refine List.filter_eq_nil_iff.mpr fun e he => ?_
    have howner := ho.owners e he
    simpa using fun heq : e.owner = c => hc (heq ▸ howner)
  have hown : draft.attributes.filter (·.owner = c) = draft.attributes := by
    refine List.filter_eq_self.mpr fun e he => ?_
    have howner : e.owner = c := hd.owner e he
    simpa using howner
  dsimp only [ClassMembers.ownSlots, membersOf]
  rw [List.filter_append, hinherited, hown, List.nil_append]

/-- A class keeps the slots it inherits and adds free ones after them. -/
theorem ordered_membersOf (hd : (ms.siteOf c).Numbered a k draft)
    (ho : (ms.inherited c).Ordered a k owners) :
    (ms.membersOf c draft).Ordered draft.attributeCount draft.methodCount (owners ++ [c]) := by
  obtain ⟨es, hes, heq⟩ := exists_descends hd ho.names_nodup
  have hslots : es.map (·.slot) = (ms.inherited c).methods.map (·.slot) :=
    MethodEntry.Descends.map_eq hes fun m e he => (Prod.mk.inj (Prod.mk.inj he).2).1
  have hattributes := hd.attributes.pairwise_append ho.attributes ho.attributes_lt
  have hmethods := hd.methods.pairwise_append ho.methods ho.methods_lt
  rw [← List.map_append] at hattributes
  rw [Site.newSlots, ← hslots, ← List.map_append, ← heq] at hmethods
  refine ⟨hattributes.1, hattributes.2, ?_, hmethods.1, hmethods.2, ?_⟩
  · refine List.forall_mem_append.mpr ⟨fun e he => ?_, fun e he => ?_⟩
    · exact List.mem_append_left _ (ho.owners e he)
    · exact List.mem_append_right _ (List.mem_singleton.mpr (hd.owner e he))
  · exact names_nodup_membersOf hd ho.names_nodup

/-! ## All classes -/

/-- The classes added so far use the slots below the two counts, each for one new member. -/
structure Layout (ms : Members) : Prop where
  attributes : Consecutive 0 ms.attributeCount (ms.classes.flatMap ClassMembers.ownSlots)
  methods : Consecutive 0 ms.methodCount (ms.classes.flatMap fun own => Site.newSlots own.methods)
  ordered : ∀ own ∈ ms.classes,
    own.Ordered ms.attributeCount ms.methodCount (ms.classes.map (·.cls))

theorem Layout.inherited (hl : ms.Layout) (c : Name) :
    (ms.inherited c).Ordered ms.attributeCount ms.methodCount (ms.classes.map (·.cls)) := by
  unfold Members.inherited siteOf
  cases hp : ms.hierarchy.parent? c with
  | none => exact ClassMembers.ordered_empty _ _ _ _
  | some p =>
      cases hof : ms.of? p with
      | none => simpa [hof] using ClassMembers.ordered_empty p _ _ _
      | some own => simpa [hof] using hl.ordered own (List.mem_of_find?_eq_some hof)

theorem Layout.addClass {reports : List (Report Problem)} (hl : ms.Layout)
    (hc : c ∉ ms.classes.map (·.cls)) : (addClass (ms, reports) c).1.Layout := by
  cases hdecl : ms.hierarchy.decl? c with
  | none => simpa [Members.addClass, hdecl] using hl
  | some decl =>
      have hd := (Site.numbered_start (ms.siteOf c) ms.attributeCount ms.methodCount).foldl
        decl.features
      generalize hdraft : decl.features.foldl (ms.siteOf c).addFeature _ = draft at hd
      have ho := hl.inherited c
      rw [addClass_eq hdecl hdraft]
      refine ⟨?_, ?_, ?_⟩
      · rw [List.flatMap_append, List.flatMap_singleton, ownSlots_membersOf hd ho hc]
        exact hl.attributes.append hd.attributes
      · rw [List.flatMap_append, List.flatMap_singleton, newSlots_membersOf hd ho.names_nodup]
        exact hl.methods.append hd.methods
      · rw [List.map_append]
        refine List.forall_mem_append.mpr ⟨fun own hown => ?_, ?_⟩
        · exact (hl.ordered own hown).mono hd.attributes.1 hd.methods.1
            (List.subset_append_left _ _)
        · exact List.forall_mem_singleton.mpr (ordered_membersOf hd ho)

section

variable {h : Hierarchy} {reports : List (Report Problem)} (hr : h.Rooted)
  (hb : build h = .ok (ms, reports))

include hr hb

theorem layout_of_build : ms.Layout :=
  (build_induction (P := fun state => state.1.Layout) hr hb ⟨.nil 0, .nil 0, by simp⟩
    fun hadding hnew hlayout => hlayout.addClass (hadding.classes ▸ hnew)).2

theorem of?_of_build {c : Name} (hc : c ∈ h.names) :
    ∃ own, ms.of? c = some own ∧ own ∈ ms.classes ∧ own.cls = c ∧ c ≠ .selfType := by
  have ha := adding_of_build hr hb
  obtain ⟨decl, draft, had⟩ := ha.added c ((Hierarchy.mem_topological hr).mpr hc)
  exact ⟨_, had.of?_eq, List.mem_of_find?_eq_some had.of?_eq, rfl,
    fun heq => hr.selfType_not_mem (heq ▸ hc)⟩

/-- The members of a class begin with those of its parent. -/
theorem members_of_parent {c q : Name} (hq : h.parent? c = some q) :
    ms.attributes q q <+: ms.attributes c c ∧
      ∃ es, es <+: ms.methods c c ∧ List.Forall₂ (MethodEntry.Descends c) (ms.methods q q) es := by
  have ha := adding_of_build hr hb
  have hh : ms.hierarchy = h := ha.hierarchy
  have hc := Hierarchy.mem_names_of_parent? hq
  obtain ⟨own, hof, -, -, hself⟩ := of?_of_build hr hb (hr.parent_mem hq)
  obtain ⟨decl, draft, had⟩ := ha.added c ((Hierarchy.mem_topological hr).mpr hc)
  obtain ⟨a, k, hdraft⟩ := had.drafted
  have hinherited : ms.inherited c = own := by simp [inherited, siteOf, hh, hq, hof]
  have hnumbered : (ms.siteOf c).Numbered a k draft :=
    hdraft ▸ (Site.numbered_start _ a k).foldl decl.features
  have hcself : c ≠ .selfType := fun heq => hr.selfType_not_mem (heq ▸ hc)
  rw [attributes_of had.of?_eq hcself, methods_of had.of?_eq hcself, attributes_of hof hself,
    methods_of hof hself, ← hinherited]
  refine ⟨List.prefix_append _ _, ?_⟩
  obtain ⟨es, hes, heq⟩ := exists_descends hnumbered
    ((layout_of_build hr hb).inherited c).names_nodup
  exact ⟨es, heq ▸ List.prefix_append _ _, hes⟩

/-- The members of a class are those it declares itself and those it inherits and does not declare.
In whatever order they come, sorted by slot they are the members as they are listed. -/
theorem members_eq_sort {c : Name} (hc : c ∈ h.names) :
    ∃ draft, ms.of? c = some (ms.membersOf c draft) ∧
      (∀ l, l.Perm (draft.attributes ++ (ms.inherited c).attributes) →
        (l.map (·.slot)).Pairwise (· ≤ ·) → l = ms.attributes c c) ∧
      (∀ l, l.Perm (draft.methods ++ Site.keptMethods (ms.inherited c).methods draft.methods) →
        (l.map (·.slot)).Pairwise (· ≤ ·) → l = ms.methods c c) := by
  have ha := adding_of_build hr hb
  have hlayout := layout_of_build hr hb
  have hself : c ≠ .selfType := fun heq => hr.selfType_not_mem (heq ▸ hc)
  obtain ⟨decl, draft, had⟩ := ha.added c ((Hierarchy.mem_topological hr).mpr hc)
  obtain ⟨a, k, hdraft⟩ := had.drafted
  have hnumbered : (ms.siteOf c).Numbered a k draft :=
    hdraft ▸ (Site.numbered_start _ a k).foldl decl.features
  have hordered := hlayout.ordered _ (List.mem_of_find?_eq_some had.of?_eq)
  rw [attributes_of had.of?_eq hself, methods_of had.of?_eq hself]
  refine ⟨draft, had.of?_eq, fun l hl hsorted => ?_, fun l hl hsorted => ?_⟩
  · exact eq_of_perm_of_increasing hordered.attributes (hl.trans List.perm_append_comm) hsorted
  · exact eq_of_perm_of_increasing hordered.methods
      (hl.trans (methods_perm hnumbered (hlayout.inherited c).names_nodup).symm) hsorted

/-- What is collected class by class in the order of the hierarchy is what is collected in the
order in which the classes were added, rearranged. -/
theorem flatMap_names_perm {β : Type} (f : ClassMembers → List β) (g : Name → List β)
    (hfg : ∀ own, ms.of? own.cls = some own → own.cls ≠ .selfType → g own.cls = f own) :
    (h.names.flatMap g).Perm (ms.classes.flatMap f) := by
  have ha := adding_of_build hr hb
  have hclasses : ms.classes.map (·.cls) = h.topological := ha.classes
  have hnodup : (ms.classes.map (·.cls)).Nodup := hclasses ▸ Hierarchy.topological_nodup hr
  have hperm : h.names.Perm h.topological :=
    (List.perm_ext_iff_of_nodup hr.names_nodup (Hierarchy.topological_nodup hr)).mpr
      fun c => (Hierarchy.mem_topological hr).symm
  refine (hperm.flatMap_right g).trans (.of_eq ?_)
  rw [← hclasses, List.flatMap_map]
  refine List.flatMap_congr fun own hown => ?_
  have hmem : own.cls ∈ h.topological := hclasses ▸ List.mem_map_of_mem hown
  refine hfg own (find?_of_nodup_map hnodup hown) fun heq => hr.selfType_not_mem ?_
  exact heq ▸ (Hierarchy.mem_topological hr).mp hmem

end

/-- In the members of a valid hierarchy, whether or not something was reported about them, the
members of a class begin with those of its parent, the slots of a class increase, and every slot is
used for one member that is new in its class. -/
theorem slots_of_valid_hierarchy {p : Program} (hvalid : (Hierarchy.build p).1.valid = true) :
    ∃ ms reports, build (Hierarchy.build p).1 = .ok (ms, reports) ∧
      ms.hierarchy = (Hierarchy.build p).1 ∧
      (∀ c q, ms.hierarchy.parent? c = some q →
        ms.attributes q q <+: ms.attributes c c ∧
        (ms.methods q q).map (·.interface) <+: (ms.methods c c).map (·.interface) ∧
        ∃ es, es <+: ms.methods c c ∧
          List.Forall₂ (MethodEntry.Descends c) (ms.methods q q) es) ∧
      (∀ c ∈ ms.hierarchy.names,
        ((ms.attributes c c).map (·.slot)).Pairwise (· < ·) ∧
        ((ms.methods c c).map (·.slot)).Pairwise (· < ·)) ∧
      (ms.hierarchy.names.flatMap fun c =>
        ((ms.methods c c).filter (·.origin = .introduced)).map (·.slot)).Perm
          (List.range ms.methodCount) ∧
      (ms.hierarchy.names.flatMap fun c =>
        ((ms.attributes c c).filter (·.owner = c)).map (·.slot)).Perm
          (List.range ms.attributeCount) := by
  have hr := Hierarchy.rooted_of_valid hvalid
  generalize (Hierarchy.build p).1 = h at hvalid hr ⊢
  cases hb : build h with
  | error fault => simp [build, hvalid] at hb
  | ok state =>
      obtain ⟨ms, reports⟩ := state
      have hh := hierarchy_of_build hr hb
      have hlayout := layout_of_build hr hb
      refine ⟨ms, reports, rfl, hh, ?_⟩
      rw [hh]
      refine ⟨fun c q hq => ?_, fun c hc => ?_, ?_, ?_⟩
      · obtain ⟨hattributes, es, hes, hdescends⟩ := members_of_parent hr hb hq
        refine ⟨hattributes, ?_, es, hes, hdescends⟩
        rw [← MethodEntry.Descends.map_eq hdescends fun m e he => he]
        exact hes.map _
      · obtain ⟨own, hof, hown, -, hself⟩ := of?_of_build hr hb hc
        have hordered := hlayout.ordered own hown
        rw [attributes_of hof hself, methods_of hof hself]
        exact ⟨hordered.attributes, hordered.methods⟩
      · rw [← hlayout.methods.eq_range]
        refine flatMap_names_perm hr hb _ _ fun own hof hself => ?_
        rw [methods_of hof hself]
        rfl
      · rw [← hlayout.attributes.eq_range]
        refine flatMap_names_perm hr hb _ _ fun own hof hself => ?_
        rw [attributes_of hof hself]
        rfl

/-- The tree of a class `A` with an attribute and methods `f` and `g`, and an heir `B` that
overrides `f`, gives `g` another result, and adds an attribute and a method. -/
def rejectedOverride : Program :=
  let span : Span := ⟨"slots.cl", 1⟩
  let m : Mark := { span }
  let number : Expr := .int m "1"
  ⟨span,
    [⟨span, .named "A", .object,
      [.attr ⟨span, .named "x", .int, .noExpr m⟩,
        .method ⟨span, .named "f", [⟨span, .named "a", .int⟩], .int, number⟩,
        .method ⟨span, .named "g", [], .int, number⟩]⟩,
    ⟨span, .named "B", .named "A",
      [.attr ⟨span, .named "y", .int, .noExpr m⟩,
        .method ⟨span, .named "f", [⟨span, .named "b", .int⟩], .int, number⟩,
        .method ⟨span, .named "g", [], .string, .string m ""⟩,
        .method ⟨span, .named "h", [], .int, number⟩]⟩]⟩

/-- The wrong result is reported, and `B` still takes over the slots and interfaces of `A`. -/
theorem slots_of_rejectedOverride :
    (Hierarchy.build rejectedOverride).1.valid = true ∧
      ∃ ms reports, build (Hierarchy.build rejectedOverride).1 = .ok (ms, reports) ∧
        reports.length = 1 ∧
        (ms.methods (.named "A") (.named "A")).map (·.interface) <+:
          (ms.methods (.named "B") (.named "B")).map (·.interface) := by
  have hvalid : (Hierarchy.build rejectedOverride).1.valid = true := by decide +kernel
  obtain ⟨ms, reports, hb, hh, hparents, -⟩ := slots_of_valid_hierarchy hvalid
  have hlength : (build (Hierarchy.build rejectedOverride).1).map (·.2.length) = .ok 1 := by
    decide +kernel
  rw [hb] at hlength
  refine ⟨hvalid, ms, reports, hb, Except.ok.inj hlength, (hparents _ _ ?_).2.1⟩
  rw [hh]
  decide +kernel

end Members

end Cool
