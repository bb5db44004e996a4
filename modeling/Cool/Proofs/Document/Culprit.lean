import Cool.Proofs.Document.Moved
import Cool.Proofs.Document.RoundTrip

/-! Errors of documents point at what is wrong. The path of an error leads from the root of a
document to the node at fault, and the elements before that path in the lists it passes are not at
fault. -/

namespace Cool.Document

variable {α β : Type} (path : Path) (ms : Members) (file : String)

/-! ## Following a path -/

/-- Whether an element of the list of a key can be read. -/
def decodes (file : String) (path : Path) (key : String) (j : Json) : Bool :=
  match key with
  | "classes" => (classDecl file path j).isOk
  | "features" => (feature file path j).isOk
  | "formals" => (formal file path j).isOk
  | "branches" => (branch file path j).isOk
  | _ => (expr file path j).isOk

/-- A path leads from one value to another over the last values of its keys. In each list on the
way, every element before the one it passes can be read, wherever it stands. -/
inductive Leads (file : String) : Json → Path → Json → Prop where
  | here (j : Json) : Leads file j [] j
  | field {text key : String} {ms : Members} {v target : Json} {path : Path} :
      Json.find? key ms = some v → Leads file v path target →
      Leads file (.object text ms) (.key key :: path) target
  | element {text key listText : String} {ms : Members} {items : List Json} {i : Nat}
      {v target : Json} {path : Path} :
      Json.find? key ms = some (.array listText items) → items[i]? = some v →
      (∀ u ∈ items.take i, ∀ place, decodes file place key u = true) → Leads file v path target →
      Leads file (.object text ms) (.key key :: .index i :: path) target

/-- The last value of a key of the root, whatever the case of its letters. -/
def rootField? (key : String) : Members → Option Json
  | [] => none
  | (k, v) :: rest =>
    match rootField? key rest with
    | some w => some w
    | none => if sameKey k key then some v else none

/-- A path leads from the root of a document to a value: it passes one of the classes, and all those
before that one can be read. -/
inductive LeadsFromRoot (file : String) : Json → Path → Json → Prop where
  | element {text listText : String} {ms : Members} {items : List Json} {i : Nat} {v target : Json}
      {path : Path} :
      rootField? "classes" ms = some (.array listText items) → items[i]? = some v →
      (∀ u ∈ items.take i, ∀ place, decodes file place "classes" u = true) →
      Leads file v path target →
      LeadsFromRoot file (.object text ms) (.key "classes" :: .index i :: path) target

/-- A key that is not there, or has no value. -/
def Absent (key : String) (ms : Members) : Prop :=
  Json.find? key ms = none ∨ Json.find? key ms = some .null

/-- The kinds that are known. -/
def Tagged.kinds : Tagged → List String
  | feature => ["attr", "method"]
  | expression =>
    ["block", "assign", "dispatch", "static_dispatch", "cond", "loop", "typcase", "let", "plus",
      "sub", "mul", "divide", "lt", "leq", "eq", "neg", "comp", "isvoid", "int", "string", "bool",
      "new", "object", "no_expr"]

/-- A node whose kind is not known. -/
def Unknown (what : Tagged) (kind : String) (ms : Members) : Prop :=
  Json.find? "kind" ms = some (.string kind) ∧ kind ∉ what.kinds

/-- An error about a field or a kind leads to the node that is at fault. -/
def Culprit (leads : Path → Json → Prop) : Error → Prop
  | .missingField path key => ∃ text ms, leads path (.object text ms) ∧ Absent key ms
  | .unknownKind path what kind => ∃ text ms, leads path (.object text ms) ∧ Unknown what kind ms
  | _ => True

theorem Culprit.under {leads leads' : Path → Json → Prop} {e : Error} (he : Culprit leads e)
    (above : Path) (habove : ∀ path target, leads path target → leads' (above ++ path) target) :
    Culprit leads' (e.under above) := by
  cases e with
  | missingField path key =>
      obtain ⟨text, ms, hleads, habsent⟩ := he
      exact ⟨text, ms, habove _ _ hleads, habsent⟩
  | unknownKind path what kind =>
      obtain ⟨text, ms, hleads, hunknown⟩ := he
      exact ⟨text, ms, habove _ _ hleads, hunknown⟩
  | _ => trivial

theorem absent_of_field? {key : String} {ms : Members} (hnone : Json.field? key ms = none) :
    Absent key ms := by
  unfold Json.field? at hnone
  split at hnone
  · exact .inr ‹_›
  · exact .inl hnone

/-! ## Readings that fail -/

/-- Reading from a value fails only with errors that lead to what is at fault in it. -/
def Blames (file : String) (j : Json) (x : Except Error α) : Prop :=
  ∀ e, x = .error e → Culprit (Leads file j) e

namespace Blames

variable {j : Json} {file : String}

theorem ok (a : α) : Blames file j (.ok a) := by
  intro e he
  cases he

theorem error {e : Error} (he : Culprit (Leads file j) e) :
    Blames file j (.error e : Except Error α) := by
  intro e' he'
  cases he'
  exact he

theorem bind {x : Except Error α} {f : α → Except Error β} (hx : Blames file j x)
    (hf : ∀ a, x = .ok a → Blames file j (f a)) : Blames file j (x >>= f) := by
  cases x with
  | error e => exact error (hx e rfl)
  | ok a => exact hf a rfl

/-- What is at fault in the value of a key is at fault in the node. -/
theorem field {text key : String} {ms : Members} {v : Json} {x y : Except Error α}
    (hv : Json.find? key ms = some v) (hxy : Moved [.key key] x y) (hy : Blames file v y) :
    Blames file (.object text ms) x := by
  intro e he
  obtain ⟨e', he', rfl⟩ := hxy.eq_error he
  exact (hy e' he').under [.key key] fun path target => .field hv

end Blames

/-- A list fails with its first element that fails. -/
theorem decodeAll_eq_error {decode : Path → α → Except Error β} {path : Path} {i : Nat}
    {as : List α} {e : Error} (h : decodeAll path decode i as = .error e) :
    ∃ n a, as[n]? = some a ∧ decode (path ++ [.index (i + n)]) a = .error e ∧
      ∀ b ∈ as.take n, ∃ place, (decode place b).isOk = true := by
  induction as generalizing i with
  | nil => cases h
  | cons a as ih =>
      rw [decodeAll] at h
      cases ha : decode (path ++ [.index i]) a with
      | error e' =>
          rw [ha] at h
          cases h
          exact ⟨0, a, rfl, ha, nofun⟩
      | ok b =>
          rw [ha, ok_bind] at h
          cases has : decodeAll path decode (i + 1) as with
          | ok bs =>
              rw [has] at h
              cases h
          | error e' =>
              rw [has] at h
              cases h
              obtain ⟨n, a', hn, herror, hbefore⟩ := ih has
              rw [Nat.add_right_comm, Nat.add_assoc] at herror
              refine ⟨n + 1, a', hn, herror, ?_⟩
              rw [List.take_succ_cons, List.forall_mem_cons]
              exact ⟨⟨path ++ [.index i], by rw [ha]; rfl⟩, hbefore⟩

/-- Whether something can be read does not depend on where it stands. -/
theorem isOk_of_moved (decode : Path → Except Error β)
    (hmoved : ∀ above path, Moved above (decode (above ++ path)) (decode path)) {place : Path}
    (hplace : (decode place).isOk = true) (place' : Path) : (decode place').isOk = true := by
  have hown := (hmoved place []).isOk
  have hother := (hmoved place' []).isOk
  rw [List.append_nil] at hown hother
  rw [hother, ← hown, hplace]

/-- What leads to an element of a list, and what is known of those before it. -/
theorem exists_element {decode : Path → α → Except Error β} {value : α → Json} {as : List α}
    {file key : String}
    (hmoved : ∀ above path a, Moved above (decode (above ++ path) a) (decode path a))
    (hdecodes : ∀ place a, decodes file place key (value a) = (decode place a).isOk)
    (hblames : ∀ a ∈ as, Blames file (value a) (decode [] a)) {e : Error}
    (he : decodeAll [.key key] decode 0 as = .error e) :
    ∃ i v e', (as.map value)[i]? = some v ∧
      (∀ u ∈ (as.map value).take i, ∀ place, decodes file place key u = true) ∧
      Culprit (Leads file v) e' ∧ e = e'.under [.key key, .index i] := by
  obtain ⟨i, a, hi, herror, hbefore⟩ := decodeAll_eq_error he
  have hmoved' := hmoved [.key key, .index i] [] a
  rw [Nat.zero_add] at herror
  obtain ⟨e', he', rfl⟩ := hmoved'.eq_error herror
  refine ⟨i, value a, e', ?_, ?_, hblames a (List.mem_of_getElem? hi) e' he', rfl⟩
  · rw [List.getElem?_map, hi]
    rfl
  · rw [← List.map_take, List.forall_mem_map]
    intro b hb place
    obtain ⟨place', hok⟩ := hbefore b hb
    rw [hdecodes]
    exact isOk_of_moved (decode · b) (fun above path => hmoved above path b) hok place

theorem exists_children {key : String} {items : List { v : Json // sizeOf v < sizeOf ms }}
    (hitems : children path ms key = .ok items) :
    items = [] ∨ ∃ text, Json.find? key ms = some (.array text (items.map (·.1))) := by
  unfold children child? at hitems
  split at hitems
  · cases hitems
    exact .inl rfl
  · rename_i text vs hsize hchild
    cases hitems
    refine .inr ⟨text, ?_⟩
    split at hchild
    · rename_i hfield
      cases hchild
      rw [List.map_map]
      exact (Json.find?_of_field? hfield).trans
        (congrArg (some ∘ Json.array text) (List.attach_map_subtype_val vs).symm)
    · cases hchild
  · cases hitems

/-- What is at fault in a list of parts is at fault in the node. -/
theorem Blames.children {decode : Path → { v : Json // sizeOf v < sizeOf ms } → Except Error β}
    {key : String}
    (hmoved : ∀ above path v, Moved above (decode (above ++ path) v) (decode path v))
    (hdecodes : ∀ place v, decodes file place key v.1 = (decode place v).isOk)
    (hblames : ∀ v, Blames file v.1 (decode [] v)) (text : String) :
    Blames file (.object text ms)
      (Document.children [] ms key >>= decodeAll [.key key] decode 0) := by
  refine Blames.bind ?_ fun items hitems e he => ?_
  · unfold Document.children
    split
    · exact .ok _
    · exact .ok _
    · exact .error trivial
  · obtain ⟨i, v, e', hi, hbefore, hculprit, rfl⟩ := exists_element hmoved hdecodes
      (fun v _ => hblames v) he
    rcases exists_children [] ms hitems with rfl | ⟨listText, hlist⟩
    · cases hi
    · exact hculprit.under _ fun path target => .element hlist hi hbefore

section Fields

variable (whole : String)

theorem text_blames (key : String) : Blames file (.object whole ms) (text [] ms key) := by
  unfold text
  split
  · exact .ok _
  · exact .error trivial
  · exact .error ⟨whole, ms, .here _, absent_of_field? ‹_›⟩

theorem optionalText_blames (key : String) :
    Blames file (.object whole ms) (optionalText [] ms key) := by
  unfold optionalText
  split
  · exact .ok _
  · exact .error trivial
  · exact .ok _

theorem name_blames (key : String) : Blames file (.object whole ms) (name [] ms key) := by
  have htext := text_blames ms file whole key
  unfold name
  cases hkey : text [] ms key with
  | error e => exact .error (htext e hkey)
  | ok s => exact .ok _

theorem span_blames : Blames file (.object whole ms) (span file [] ms) := by
  unfold span
  split
  · exact .ok _
  · split
    · exact .ok _
    · exact .error trivial
  · exact .error trivial

theorem integerToken_blames : Blames file (.object whole ms) (integerToken [] ms) := by
  unfold integerToken
  split
  · exact .error ⟨whole, ms, .here _, absent_of_field? ‹_›⟩
  · split
    · exact .error trivial
    · split
      · exact .ok _
      · exact .error trivial

theorem boolean_blames : Blames file (.object whole ms) (boolean [] ms) := by
  unfold boolean
  split
  · exact .error ⟨whole, ms, .here _, absent_of_field? ‹_›⟩
  · exact .ok _
  · exact .error trivial

theorem find?_of_text {path : Path} {ms : Members} {key s : String}
    (hs : text path ms key = .ok s) : Json.find? key ms = some (.string s) := by
  unfold text at hs
  split at hs
  · cases hs
    exact Json.find?_of_field? ‹_›
  · cases hs
  · cases hs

end Fields

/-- The kinds of expressions that are no operators. -/
def plainKinds : List String :=
  ["no_expr", "block", "assign", "dispatch", "static_dispatch", "cond", "loop", "typcase", "let",
    "int", "string", "bool", "new", "object"]

theorem not_mem_kinds {kind : String} (hbinary : binaryOf? kind = none)
    (hunary : unaryOf? kind = none) (hplain : kind ∉ plainKinds) :
    kind ∉ Tagged.expression.kinds := by
  have hall : ∀ kind ∈ Tagged.expression.kinds,
      (binaryOf? kind).isSome = true ∨ (unaryOf? kind).isSome = true ∨ kind ∈ plainKinds := by
    decide
  intro hmem
  rcases hall kind hmem with hop | hop | hplain'
  · rw [hbinary] at hop
    cases hop
  · rw [hunary] at hop
    cases hop
  · exact hplain hplain'

mutual

theorem expr_blames (file : String) (j : Json) : Blames file j (expr file [] j) := by
  cases j with
  | object whole ms =>
      unfold expr
      refine (text_blames ms file whole "kind").bind fun kind hkind => ?_
      refine (span_blames ms file whole).bind fun place _ => ?_
      dsimp only
      split
      · refine (exprField_blames file whole ms "left").bind fun left _ => ?_
        exact (exprField_blames file whole ms "right").bind fun right _ => .ok _
      · exact (exprField_blames file whole ms "expr").bind fun operand _ => .ok _
      · exact .ok _
      · exact (exprList_blames file whole ms "body" fun _ _ => rfl).bind fun body _ => .ok _
      · refine (name_blames ms file whole "name").bind fun target _ => ?_
        exact (exprField_blames file whole ms "value").bind fun value _ => .ok _
      · refine (exprField_blames file whole ms "receiver").bind fun receiver _ => ?_
        refine (name_blames ms file whole "method").bind fun method _ => ?_
        exact (exprList_blames file whole ms "args" fun _ _ => rfl).bind fun args _ => .ok _
      · refine (exprField_blames file whole ms "receiver").bind fun receiver _ => ?_
        refine (name_blames ms file whole "method").bind fun method _ => ?_
        refine (exprList_blames file whole ms "args" fun _ _ => rfl).bind fun args _ => ?_
        exact (name_blames ms file whole "type").bind fun target _ => .ok _
      · refine (exprField_blames file whole ms "pred").bind fun pred _ => ?_
        refine (exprField_blames file whole ms "then").bind fun onTrue _ => ?_
        exact (exprField_blames file whole ms "else").bind fun onFalse _ => .ok _
      · refine (exprField_blames file whole ms "pred").bind fun pred _ => ?_
        exact (exprField_blames file whole ms "body").bind fun body _ => .ok _
      · refine (exprField_blames file whole ms "expr").bind fun scrutinee _ => ?_
        exact (branchList_blames file whole ms).bind fun branches _ => .ok _
      · refine (name_blames ms file whole "name").bind fun bound _ => ?_
        refine (name_blames ms file whole "type").bind fun type _ => ?_
        refine (initializer_blames file whole ms place).bind fun init _ => ?_
        exact (exprField_blames file whole ms "body").bind fun body _ => .ok _
      · exact (integerToken_blames ms file whole).bind fun token _ => .ok _
      · exact (text_blames ms file whole "value").bind fun value _ => .ok _
      · exact (boolean_blames ms file whole).bind fun value _ => .ok _
      · exact (name_blames ms file whole "type").bind fun type _ => .ok _
      · exact (name_blames ms file whole "name").bind fun bound _ => .ok _
      · rename_i hbinary hunary
        refine .error ⟨whole, ms, .here _, find?_of_text hkind, ?_⟩
        refine not_mem_kinds hbinary hunary ?_
        simp only [plainKinds, List.mem_cons, List.not_mem_nil, or_false]
        tauto
  | _ =>
      unfold expr
      exact .error trivial
termination_by sizeOf j
decreasing_by all_goals exact Json.sizeOf_members_lt _ _

theorem exprField_blames (file whole : String) (ms : Members) (key : String) :
    Blames file (.object whole ms) (exprField file [] ms key) := by
  cases hkey : Json.field? key ms with
  | none =>
      rw [exprField, child?_eq_none hkey]
      exact .error ⟨whole, ms, .here _, absent_of_field? hkey⟩
  | some v =>
      rw [exprField, child?_eq_some hkey]
      exact .field (Json.find?_of_field? hkey) (expr_moved [.key key] file [] v)
        (expr_blames file v)
termination_by sizeOf ms
decreasing_by exact Json.sizeOf_lt_of_field? hkey

theorem initializer_blames (file whole : String) (ms : Members) (owner : Span) :
    Blames file (.object whole ms) (initializer file [] ms owner) := by
  cases hkey : Json.field? "init" ms with
  | none =>
      rw [initializer, child?_eq_none hkey]
      exact .ok _
  | some v =>
      rw [initializer, child?_eq_some hkey]
      exact .field (Json.find?_of_field? hkey) (expr_moved [.key "init"] file [] v)
        (expr_blames file v)
termination_by sizeOf ms
decreasing_by exact Json.sizeOf_lt_of_field? hkey

theorem exprList_blames (file whole : String) (ms : Members) (key : String)
    (hkey : ∀ place j, decodes file place key j = (expr file place j).isOk) :
    Blames file (.object whole ms) (exprList file [] ms key) := by
  unfold exprList
  exact .children ms file (fun above path v => expr_moved above file path v.1)
    (fun place v => hkey place v.1) (fun v => expr_blames file v.1) whole
termination_by sizeOf ms
decreasing_by exact v.2

theorem branchList_blames (file whole : String) (ms : Members) :
    Blames file (.object whole ms) (branchList file [] ms) := by
  unfold branchList
  exact .children ms file (fun above path v => branch_moved above file path v.1)
    (fun place v => rfl) (fun v => branch_blames file v.1) whole
termination_by sizeOf ms
decreasing_by exact v.2

theorem branch_blames (file : String) (j : Json) : Blames file j (branch file [] j) := by
  cases j with
  | object whole ms =>
      unfold branch
      refine (span_blames ms file whole).bind fun place _ => ?_
      refine (name_blames ms file whole "name").bind fun bound _ => ?_
      refine (name_blames ms file whole "type").bind fun type _ => ?_
      exact (exprField_blames file whole ms "body").bind fun body _ => .ok _
  | _ =>
      unfold branch
      exact .error trivial
termination_by sizeOf j
decreasing_by all_goals exact Json.sizeOf_members_lt _ _

end

/-! ## Documents -/

theorem asObject_blames (j : Json) : Blames file j (asObject [] j) := by
  cases j with
  | object whole ms => exact .ok ms
  | _ => exact .error trivial

theorem eq_object_of_asObject {path : Path} {j : Json} {ms : Members}
    (hms : asObject path j = .ok ms) : ∃ whole, j = .object whole ms := by
  cases j with
  | object whole ms' =>
      cases hms
      exact ⟨whole, rfl⟩
  | _ => cases hms

theorem formal_blames (j : Json) : Blames file j (formal file [] j) := by
  unfold formal
  refine (asObject_blames file j).bind fun ms hms => ?_
  obtain ⟨whole, rfl⟩ := eq_object_of_asObject hms
  refine (span_blames ms file whole).bind fun place _ => ?_
  refine (name_blames ms file whole "name").bind fun parameter _ => ?_
  exact (name_blames ms file whole "type").bind fun type _ => .ok _

theorem feature_blames (j : Json) : Blames file j (feature file [] j) := by
  unfold feature
  refine (asObject_blames file j).bind fun ms hms => ?_
  obtain ⟨whole, rfl⟩ := eq_object_of_asObject hms
  refine (text_blames ms file whole "kind").bind fun kind hkind => ?_
  refine (span_blames ms file whole).bind fun place _ => ?_
  refine (name_blames ms file whole "name").bind fun member _ => ?_
  split
  · refine (name_blames ms file whole "type").bind fun type _ => ?_
    exact (initializer_blames file whole ms place).bind fun init _ => .ok _
  · refine (name_blames ms file whole "return").bind fun result _ => ?_
    rw [← bind_assoc]
    refine Blames.bind ?_ fun formals _ => ?_
    · exact .children ms file (fun above path v => formal_moved above path file v.1)
        (fun place v => rfl) (fun v => formal_blames file v.1) whole
    · exact (exprField_blames file whole ms "body").bind fun body _ => .ok _
  · refine .error ⟨whole, ms, .here _, find?_of_text hkind, ?_⟩
    simp only [Tagged.kinds, List.mem_cons, List.not_mem_nil, or_false]
    tauto

theorem classDecl_blames (j : Json) : Blames file j (classDecl file [] j) := by
  unfold classDecl
  refine (asObject_blames file j).bind fun ms hms => ?_
  obtain ⟨whole, rfl⟩ := eq_object_of_asObject hms
  refine (span_blames ms file whole).bind fun place _ => ?_
  refine (name_blames ms file whole "name").bind fun className _ => ?_
  refine (optionalText_blames ms file whole "parent").bind fun parent _ => ?_
  rw [← bind_assoc]
  refine Blames.bind ?_ fun features _ => .ok _
  exact .children ms file (fun above path v => feature_moved above path file v.1)
    (fun place v => rfl) (fun v => feature_blames file v.1) whole

theorem not_sameKey_filename {key : String} (hkey : sameKey key "classes" = true) :
    sameKey key "filename" = false := by
  by_contra hother
  rw [Bool.not_eq_false] at hother
  simp only [sameKey, Bool.and_eq_true, beq_iff_eq] at hkey hother
  exact absurd (hkey.1.symm.trans hother.1) (by decide)

/-- The classes that the last value of the key gives, or else those known before. -/
def classesOr (classes : List Json) : Option Json → List Json
  | some (.array _ items) => items
  | some _ => []
  | none => classes

theorem take_classes_eq {r r' : Root} {key : String} {v : Json} (hr : r.take key v = .ok r') :
    r'.classes = classesOr r.classes (if sameKey key "classes" then some v else none) := by
  unfold Root.take at hr
  by_cases hkey : sameKey key "classes" = true
  · rw [if_neg (by simp [not_sameKey_filename hkey]), if_pos hkey] at hr
    rw [if_pos hkey]
    cases v with
    | array text items =>
        cases hr
        rfl
    | null =>
        cases hr
        rfl
    | _ => cases hr
  · rw [if_neg hkey] at hr
    rw [if_neg hkey]
    split at hr
    · split at hr
      · cases hr
        rfl
      · cases hr
        rfl
      · cases hr
    · cases hr
      rfl

theorem foldlM_classes {ms : Members} {r r' : Root}
    (hr : ms.foldlM (fun root (key, v) => root.take key v) r = .ok r') :
    r'.classes = classesOr r.classes (rootField? "classes" ms) := by
  induction ms generalizing r with
  | nil =>
      cases hr
      rfl
  | cons m ms ih =>
      obtain ⟨key, v⟩ := m
      rw [List.foldlM_cons] at hr
      dsimp only at hr
      cases htake : r.take key v with
      | error e =>
          rw [htake] at hr
          cases hr
      | ok r₁ =>
          rw [htake, ok_bind] at hr
          rw [ih hr, take_classes_eq htake, rootField?]
          cases hrest : rootField? "classes" ms with
          | some w => cases w <;> rfl
          | none => rfl

theorem take_eq_error {r : Root} {key : String} {v : Json} {e : Error}
    (he : r.take key v = .error e) : e = .wrongType [] := by
  unfold Root.take at he
  split at he
  · split at he
    · cases he
    · cases he
    · cases he
      rfl
  · split at he
    · split at he
      · cases he
      · cases he
      · cases he
        rfl
    · cases he

theorem foldlM_eq_error {ms : Members} {r : Root} {e : Error}
    (he : ms.foldlM (fun root (key, v) => root.take key v) r = .error e) : e = .wrongType [] := by
  induction ms generalizing r with
  | nil => cases he
  | cons m ms ih =>
      rw [List.foldlM_cons] at he
      dsimp only at he
      cases htake : r.take m.1 m.2 with
      | error e' =>
          rw [htake] at he
          cases he
          exact take_eq_error htake
      | ok r₁ =>
          rw [htake, ok_bind] at he
          exact ih he

theorem root_eq_error {j : Json} {e : Error} (he : root j = .error e) : e = .wrongType [] := by
  cases j with
  | object whole ms => exact foldlM_eq_error he
  | null => cases he
  | _ =>
      cases he
      rfl

/-- Where the classes of a document come from. -/
theorem exists_classes {j : Json} {r : Root} (hr : root j = .ok r) (hne : r.classes ≠ []) :
    ∃ whole ms listText, j = .object whole ms ∧
      rootField? "classes" ms = some (.array listText r.classes) := by
  cases j with
  | object whole ms =>
      have hclasses := foldlM_classes hr
      refine ⟨whole, ms, ?_⟩
      cases hfield : rootField? "classes" ms with
      | none =>
          rw [hfield] at hclasses
          exact absurd hclasses hne
      | some v =>
          rw [hfield] at hclasses
          cases v with
          | array listText items => exact ⟨listText, rfl, by rw [hclasses]; rfl⟩
          | _ => exact absurd hclasses hne
  | null =>
      cases hr
      exact absurd rfl hne
  | _ => cases hr

/-- The file that a document is about. -/
def fileOf (fallback : String) (j : Json) : String :=
  match root j with
  | .ok r => if r.file = "" then fallback else r.file
  | .error _ => fallback

theorem program_culprit {fallback : String} {j : Json} {e : Error}
    (he : program fallback j = .error e) : Culprit (LeadsFromRoot (fileOf fallback j) j) e := by
  unfold program at he
  unfold fileOf
  cases hroot : root j with
  | error e' =>
      rw [hroot] at he
      cases he
      rw [root_eq_error hroot]
      trivial
  | ok r =>
      rw [hroot, ok_bind] at he
      dsimp only at he ⊢
      cases hclasses : decodeAll [.key "classes"]
          (classDecl (if r.file = "" then fallback else r.file)) 0 r.classes with
      | ok cs =>
          rw [hclasses] at he
          cases he
      | error e' =>
          rw [hclasses] at he
          cases he
          obtain ⟨i, v, e', hi, hbefore, hculprit, rfl⟩ := exists_element
            (fun above path v => classDecl_moved above path _ v) (fun place v => rfl)
            (fun v _ => classDecl_blames _ v) hclasses
          rw [List.map_id'] at hi hbefore
          have hne : r.classes ≠ [] := List.ne_nil_of_mem (List.mem_of_getElem? hi)
          obtain ⟨whole, ms, listText, rfl, hfield⟩ := exists_classes hroot hne
          exact hculprit.under _ fun path target => .element hfield hi hbefore

/-- An error about a missing field or an unknown kind names the path from the root of the document
to the node at fault, and what stands before that path in the lists it passes can be read on its
own. -/
theorem decode_error_names_culprit {text fallback : String} {j : Json} {e : Error}
    (hj : Json.read text = some j) (he : decode text fallback = .error e) :
    (∀ path key, e = .missingField path key →
      e.message = path.text ++ "." ++ key ++ ": missing field" ∧
        ∃ whole ms, LeadsFromRoot (fileOf fallback j) j path (.object whole ms) ∧ Absent key ms) ∧
    (∀ path what kind, e = .unknownKind path what kind →
      e.message = path.text ++ ": " ++ what.text ++ " " ++ Text.quote kind ++ ": unknown kind" ∧
        ∃ whole ms, LeadsFromRoot (fileOf fallback j) j path (.object whole ms) ∧
          Json.find? "kind" ms = some (.string kind) ∧ kind ∉ what.kinds) := by
  rw [decode, hj] at he
  have hculprit := program_culprit he
  constructor
  · rintro path key rfl
    exact ⟨rfl, hculprit⟩
  · rintro path what kind rfl
    exact ⟨rfl, hculprit⟩

/-- An attribute whose initializer has no known kind. -/
def faultyAttribute : String :=
  "\x7b\"kind\":\"attr\",\"name\":\"x\",\"type\":\"A\",\"init\":\x7b\"kind\":\"try\"\x7d\x7d"

/-- A document whose second class holds that attribute, while its third one has no name. -/
def faultyText : String :=
  "\x7b\"CLASSES\":[\x7b\"name\":\"A\"\x7d,\x7b\"name\":\"B\",\"features\":[" ++
    faultyAttribute ++ "]\x7d,\x7b\x7d]\x7d"

def faultyPath : Path :=
  [.key "classes", .index 1, .key "features", .index 0, .key "init"]

theorem read_faultyText : ∃ j r, Json.read faultyText = some j ∧ root j = .ok r ∧ r.file = "" ∧
    decodeAll [.key "classes"] (classDecl "") 0 r.classes =
      .error (.unknownKind faultyPath .expression "try") :=
  ⟨_, _, by cbv, rfl, rfl, by cbv⟩

theorem decode_error_names_culprit_faulty : ∃ j, Json.read faultyText = some j ∧
    decode faultyText = .error (.unknownKind faultyPath .expression "try") ∧
    (Error.unknownKind faultyPath .expression "try").message =
      "classes[1].features[0].init: expression \"try\": unknown kind" ∧
    ∃ whole ms, LeadsFromRoot (fileOf "" j) j faultyPath (.object whole ms) ∧
      Json.find? "kind" ms = some (.string "try") ∧ "try" ∉ Tagged.expression.kinds := by
  obtain ⟨j, r, hj, hroot, hfile, hclasses⟩ := read_faultyText
  have hdecode : decode faultyText = .error (.unknownKind faultyPath .expression "try") := by
    rw [decode, hj]
    dsimp only
    rw [program, hroot, ok_bind]
    dsimp only
    rw [hfile, if_pos rfl, hclasses]
    rfl
  exact ⟨j, hj, hdecode, by decide, ((decode_error_names_culprit hj hdecode).2 _ _ _ rfl).2⟩

end Cool.Document
