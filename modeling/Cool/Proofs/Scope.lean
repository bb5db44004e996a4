import Cool.Scope
import Mathlib.Data.List.Nodup

/-! What is found in a scope after frames are opened, and what it makes visible. -/

namespace Cool.Scope

variable {κ ν : Type} [DecidableEq κ]

namespace Frame

theorem values_bind (f : Frame κ ν) (x y : κ) (v : ν) :
    (f.bind x v).values y = if y = x then some v else f.values y :=
  rfl

theorem order_bind (f : Frame κ ν) (x : κ) (v : ν) :
    (f.bind x v).order = if x ∈ f.order then f.order else f.order ++ [x] := by
  simp only [bind, f.inStep]

/-- In a frame made from pairs the last pair of a key counts. -/
theorem values_foldl (bs : List (κ × ν)) (f : Frame κ ν) (y : κ) :
    (bs.foldl (fun f b => f.bind b.1 b.2) f).values y =
      ((bs.filter (·.1 = y)).getLast?.map (·.2)).or (f.values y) := by
  induction bs generalizing f with
  | nil => rfl
  | cons b bs ih =>
      rw [List.foldl_cons, ih, values_bind]
      by_cases hb : b.1 = y
      · rw [List.filter_cons_of_pos (by simpa using hb), List.getLast?_cons, if_pos hb.symm]
        cases (bs.filter (·.1 = y)).getLast? <;> rfl
      · rw [List.filter_cons_of_neg (by simpa using hb), if_neg (Ne.symm hb)]

theorem values_ofList (bs : List (κ × ν)) (y : κ) :
    (ofList bs).values y = (bs.filter (·.1 = y)).getLast?.map (·.2) :=
  (values_foldl bs {} y).trans Option.or_none

end Frame

theorem lookup_enterWith (s : Scope κ ν) (bs : List (κ × ν)) (y : κ) :
    (s.enterWith bs).lookup y = ((bs.filter (·.1 = y)).getLast?.map (·.2)).or (s.lookup y) := by
  rw [lookup, enterWith, List.findSome?_cons, Frame.values_ofList, lookup]
  cases (bs.filter (·.1 = y)).getLast?.map (·.2) <;> rfl

/-- A variable hides the outer ones of its name and no others. -/
theorem lookup_enterWith_singleton (s : Scope κ ν) (x y : κ) (v : ν) :
    (s.enterWith [(x, v)]).lookup y = if y = x then some v else s.lookup y := by
  rw [lookup_enterWith]
  by_cases hyx : y = x
  · simp [hyx]
  · simp [hyx, Ne.symm hyx]

/-- What is found is a new binding or was there before. -/
theorem mem_of_lookup_enterWith {s : Scope κ ν} {bs : List (κ × ν)} {y : κ} {v : ν}
    (h : (s.enterWith bs).lookup y = some v) : (y, v) ∈ bs ∨ s.lookup y = some v := by
  rw [lookup_enterWith, Option.or_eq_some_iff] at h
  rcases h with h | ⟨-, h⟩
  · obtain ⟨⟨k, u⟩, hlast, rfl⟩ := Option.map_eq_some_iff.mp h
    obtain ⟨hmem, hkey⟩ := List.mem_filter.mp (List.mem_of_getLast? hlast)
    exact .inl (of_decide_eq_true hkey ▸ hmem)
  · exact .inr h

theorem lookup_enterWith_eq_none {s : Scope κ ν} {bs : List (κ × ν)} {y : κ}
    (hbs : ∀ b ∈ bs, b.1 ≠ y) (hs : s.lookup y = none) : (s.enterWith bs).lookup y = none := by
  refine Option.eq_none_iff_forall_ne_some.mpr fun v hv => ?_
  rcases mem_of_lookup_enterWith hv with hmem | hv
  · exact hbs _ hmem rfl
  · rw [hs] at hv
    cases hv

theorem getLast?_filter_key {α : Type} {key : α → κ} {as : List α} (has : (as.map key).Nodup)
    (y : κ) : (as.filter (key · = y)).getLast? = as.find? (key · = y) := by
  induction as with
  | nil => rfl
  | cons a as ih =>
      obtain ⟨hnew, hrest⟩ := List.nodup_cons.mp has
      by_cases ha : key a = y
      · have hnone : as.filter (key · = y) = [] := by
          refine List.filter_eq_nil_iff.mpr fun b hb hkey => hnew ?_
          exact List.mem_map.mpr ⟨b, hb, (of_decide_eq_true hkey).trans ha.symm⟩
        rw [List.filter_cons_of_pos (by simpa using ha), hnone,
          List.find?_cons_of_pos (by simpa using ha)]
        rfl
      · rw [List.filter_cons_of_neg (by simpa using ha), ih hrest,
          List.find?_cons_of_neg (by simpa using ha)]

/-- In a frame made from keys that differ each is found. -/
theorem lookup_enterWith_map {α : Type} {key : α → κ} {as : List α} (has : (as.map key).Nodup)
    (value : α → ν) (s : Scope κ ν) (y : κ) :
    (s.enterWith (as.map fun a => (key a, value a))).lookup y =
      ((as.find? (key · = y)).map value).or (s.lookup y) := by
  rw [lookup_enterWith, List.filter_map, List.getLast?_map, Option.map_map]
  have hfind := getLast?_filter_key has y
  simp only [Function.comp_def] at hfind ⊢
  rw [hfind]

/-! ## Visible bindings -/

theorem mem_distinct {k : κ} {ks : List κ} : k ∈ distinct ks ↔ k ∈ ks := by
  induction ks with
  | nil => rfl
  | cons k' ks ih =>
      rw [distinct, List.mem_cons, List.mem_cons, List.mem_filter, ih]
      by_cases hk : k = k' <;> simp [hk]

theorem distinct_nodup (ks : List κ) : (distinct ks).Nodup := by
  induction ks with
  | nil => exact List.nodup_nil
  | cons k ks ih =>
      rw [distinct, List.nodup_cons]
      exact ⟨by simp [List.mem_filter], ih.filter _⟩

theorem mem_keys_of_lookup {s : Scope κ ν} {k : κ} {v : ν} (hk : s.lookup k = some v) :
    k ∈ s.keys := by
  obtain ⟨f, hf, hin⟩ := List.exists_of_findSome?_eq_some hk
  refine mem_distinct.mpr (List.mem_flatMap.mpr ⟨f, List.mem_reverse.mpr hf, ?_⟩)
  rw [f.inStep, hin]
  rfl

/-- What is visible is what looking up finds. -/
theorem mem_visible {s : Scope κ ν} {k : κ} {v : ν} : (k, v) ∈ s.visible ↔ s.lookup k = some v := by
  unfold visible
  constructor
  · intro hmem
    obtain ⟨k', -, hk'⟩ := List.mem_filterMap.mp hmem
    obtain ⟨v', hv', heq⟩ := Option.map_eq_some_iff.mp hk'
    cases heq
    exact hv'
  · intro hk
    exact List.mem_filterMap.mpr ⟨k, mem_keys_of_lookup hk, by rw [hk]; rfl⟩

theorem visible_nodup (s : Scope κ ν) : (s.visible.map (·.1)).Nodup := by
  have hkey : ∀ k b, b ∈ Option.map (·.1) ((s.lookup k).map fun v => (k, v)) → b = k := by
    intro k b hb
    cases hk : s.lookup k <;> simp_all
  rw [visible, List.map_filterMap]
  refine (distinct_nodup _).filterMap fun k k' b hk hk' => ?_
  rw [← hkey k b hk, ← hkey k' b hk']

/-! ## Order of the visible bindings -/

theorem distinct_append_singleton (ks : List κ) (k : κ) :
    distinct (ks ++ [k]) = if k ∈ ks then distinct ks else distinct ks ++ [k] := by
  induction ks with
  | nil => rfl
  | cons k' ks ih =>
      rw [List.cons_append, distinct, ih, distinct]
      by_cases hk : k = k'
      · subst hk
        by_cases hmem : k ∈ ks <;> simp [hmem]
      · by_cases hmem : k ∈ ks <;> simp [hk, hmem]

theorem distinct_append (ks ks' : List κ) :
    distinct (ks ++ ks') = distinct ks ++ (distinct ks').filter (· ∉ ks) := by
  induction ks with
  | nil => simp [distinct]
  | cons k ks ih =>
      rw [List.cons_append, distinct, ih, distinct, List.filter_append, List.filter_filter,
        List.cons_append]
      have hrest : (distinct ks').filter (fun k' => decide (k' ≠ k) && decide (k' ∉ ks)) =
          (distinct ks').filter (· ∉ k :: ks) :=
        List.filter_congr fun k' _ => by simp [not_or]
      rw [hrest]

theorem distinct_of_nodup {ks : List κ} (hks : ks.Nodup) : distinct ks = ks := by
  induction ks with
  | nil => rfl
  | cons k ks ih =>
      obtain ⟨hnew, hrest⟩ := List.nodup_cons.mp hks
      rw [distinct, ih hrest, List.filter_eq_self.mpr]
      intro k' hk'
      exact decide_eq_true (ne_of_mem_of_not_mem hk' hnew)

/-- The members of a list stand in the order of their first occurrences. -/
theorem distinct_pairwise (ks : List κ) :
    (distinct ks).Pairwise fun k k' => ks.idxOf k < ks.idxOf k' := by
  induction ks with
  | nil => exact .nil
  | cons k ks ih =>
      rw [distinct, List.pairwise_cons]
      refine ⟨fun k' hk' => ?_, (ih.filter _).imp_of_mem fun {a b} ha hb hab => ?_⟩
      · have hne : k' ≠ k := of_decide_eq_true (List.mem_filter.mp hk').2
        rw [List.idxOf_cons_self, List.idxOf_cons_ne _ (Ne.symm hne)]
        exact Nat.succ_pos _
      · have hne : a ≠ k := of_decide_eq_true (List.mem_filter.mp ha).2
        have hne' : b ≠ k := of_decide_eq_true (List.mem_filter.mp hb).2
        rw [List.idxOf_cons_ne _ (Ne.symm hne), List.idxOf_cons_ne _ (Ne.symm hne')]
        exact Nat.succ_lt_succ hab

/-- Binds a key in a list of bindings, in the place of a binding of the same key. -/
def bindIn (key : κ) (value : ν) : List (κ × ν) → List (κ × ν)
  | [] => [(key, value)]
  | (k, v) :: rest => if k = key then (k, value) :: rest else (k, v) :: bindIn key value rest

theorem bindIn_eq {frame : List (κ × ν)} (hframe : (frame.map (·.1)).Nodup) (k : κ) (v : ν) :
    bindIn k v frame =
      if k ∈ frame.map (·.1) then frame.map fun b => if b.1 = k then (k, v) else b
      else frame ++ [(k, v)] := by
  induction frame with
  | nil => rfl
  | cons b frame ih =>
      obtain ⟨k', w⟩ := b
      obtain ⟨hnew, hrest⟩ := List.nodup_cons.mp hframe
      rw [bindIn]
      by_cases hk : k' = k
      · subst hk
        have hsame : frame.map (fun b => if b.1 = k' then (k', v) else b) = frame := by
          refine (List.map_congr_left fun b hb => if_neg fun hb' => hnew ?_).trans (List.map_id _)
          exact List.mem_map.mpr ⟨b, hb, hb'⟩
        simp [hsame]
      · rw [if_neg hk, ih hrest]
        by_cases hmem : k ∈ frame.map (·.1) <;> simp [hmem, hk, Ne.symm hk]

/-- Keys that differ are bound one after the other. -/
theorem foldl_bindIn {bs frame : List (κ × ν)} (h : ((frame ++ bs).map (·.1)).Nodup) :
    bs.foldl (fun frame b => bindIn b.1 b.2 frame) frame = frame ++ bs := by
  induction bs generalizing frame with
  | nil => exact (List.append_nil frame).symm
  | cons b bs ih =>
      have hnew : bindIn b.1 b.2 frame = frame ++ [b] := by
        rw [List.map_append, List.nodup_append'] at h
        rw [bindIn_eq h.1, if_neg fun hmem => h.2.2 hmem List.mem_cons_self]
      rw [List.append_cons] at h
      rw [List.foldl_cons, hnew, ih h, ← List.append_cons]

/-- Binding a key in a list of found keys changes what is found for it, or adds it at the end. -/
theorem bindIn_filterMap {ks : List κ} (hks : ks.Nodup) {found : κ → Option ν}
    (hfound : ∀ y ∈ ks, (found y).isSome) (k : κ) (v : ν) :
    bindIn k v (ks.filterMap fun y => (found y).map fun w => (y, w)) =
      (if k ∈ ks then ks else ks ++ [k]).filterMap fun y =>
        (if y = k then some v else found y).map fun w => (y, w) := by
  induction ks with
  | nil => simp [bindIn]
  | cons y ys ih =>
      obtain ⟨hy, hys⟩ := List.nodup_cons.mp hks
      obtain ⟨w, hw⟩ := Option.isSome_iff_exists.mp (hfound y List.mem_cons_self)
      rw [List.filterMap_cons, hw, Option.map_some]
      dsimp only
      rw [bindIn]
      by_cases hyk : y = k
      · subst hyk
        rw [if_pos rfl, if_pos List.mem_cons_self, List.filterMap_cons, if_pos rfl,
          Option.map_some]
        refine congrArg _ (List.filterMap_congr fun z hz => ?_)
        rw [if_neg (ne_of_mem_of_not_mem hz hy)]
      · rw [if_neg hyk, ih hys fun z hz => hfound z (List.mem_cons_of_mem _ hz)]
        by_cases hmem : k ∈ ys
        · rw [if_pos hmem, if_pos (List.mem_cons_of_mem _ hmem), List.filterMap_cons, if_neg hyk,
            hw, Option.map_some]
        · rw [if_neg hmem, if_neg (by simp [hmem, Ne.symm hyk]), List.cons_append,
            List.filterMap_cons, if_neg hyk, hw, Option.map_some]

theorem isSome_lookup {s : Scope κ ν} {k : κ} (hk : k ∈ s.keys) : (s.lookup k).isSome := by
  obtain ⟨f, hf, hin⟩ := List.mem_flatMap.mp (mem_distinct.mp hk)
  rw [lookup, List.findSome?_isSome_iff]
  exact ⟨f, List.mem_reverse.mp hf, (f.inStep k).mp hin⟩

/-- A binding stands in the place of the one it hides, or after all others. -/
theorem visible_bind (k : κ) (v : ν) (f : Frame κ ν) (rest : List (Frame κ ν)) :
    (⟨f.bind k v :: rest⟩ : Scope κ ν).visible = bindIn k v (⟨f :: rest⟩ : Scope κ ν).visible := by
  have hkeys : (⟨f.bind k v :: rest⟩ : Scope κ ν).keys =
      if k ∈ (⟨f :: rest⟩ : Scope κ ν).keys then (⟨f :: rest⟩ : Scope κ ν).keys
      else (⟨f :: rest⟩ : Scope κ ν).keys ++ [k] := by
    simp only [keys, mem_distinct, List.reverse_cons, List.flatMap_append, List.flatMap_cons,
      List.flatMap_nil, List.append_nil, Frame.order_bind]
    by_cases hf : k ∈ f.order
    · rw [if_pos hf, if_pos (List.mem_append_right _ hf)]
    · rw [if_neg hf, ← List.append_assoc, distinct_append_singleton]
  have hlookup : ∀ y, (⟨f.bind k v :: rest⟩ : Scope κ ν).lookup y =
      if y = k then some v else (⟨f :: rest⟩ : Scope κ ν).lookup y := by
    intro y
    simp only [lookup, List.findSome?_cons, Frame.values_bind]
    by_cases hyk : y = k <;> simp [hyk]
  have hnodup : (⟨f :: rest⟩ : Scope κ ν).keys.Nodup := distinct_nodup _
  unfold visible
  rw [hkeys, bindIn_filterMap hnodup fun y => isSome_lookup]
  simp only [hlookup]

/-- What an opened frame makes visible. -/
theorem visible_enterWith (s : Scope κ ν) (bs : List (κ × ν)) :
    (s.enterWith bs).visible = bs.foldl (fun vs b => bindIn b.1 b.2 vs) s.visible := by
  have hempty : (⟨{} :: s.frames⟩ : Scope κ ν).visible = s.visible := by
    simp [visible, keys, lookup]
  have hframe : ∀ f : Frame κ ν,
      (⟨bs.foldl (fun f b => f.bind b.1 b.2) f :: s.frames⟩ : Scope κ ν).visible =
        bs.foldl (fun vs b => bindIn b.1 b.2 vs) (⟨f :: s.frames⟩ : Scope κ ν).visible := by
    induction bs with
    | nil => exact fun _ => rfl
    | cons b bs ih =>
        intro f
        rw [List.foldl_cons, List.foldl_cons, ih, visible_bind]
  rw [enterWith, Frame.ofList, hframe, hempty]

end Cool.Scope
