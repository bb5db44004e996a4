/-! JSON values. -/

namespace Cool

/-- A JSON value. A number is kept as it is spelled; an array or object also keeps its text. -/
inductive Json where
  | null
  | bool (value : Bool)
  | number (text : String)
  | string (value : String)
  | array (text : String) (items : List Json)
  | object (text : String) (members : List (String × Json))

namespace Json

instance : Inhabited Json := ⟨null⟩

/-- The text a value is spelled with, for a string its contents. -/
def spelling : Json → String
  | null => "null"
  | bool true => "true"
  | bool false => "false"
  | number text => text
  | string value => value
  | array text _ => text
  | object text _ => text

/-- The last value of a key. -/
def find? (key : String) : List (String × Json) → Option Json
  | [] => none
  | (k, v) :: rest =>
    match find? key rest with
    | some w => some w
    | none => if k = key then some v else none

theorem find?_mem {key : String} {members : List (String × Json)} {v : Json}
    (h : find? key members = some v) : (key, v) ∈ members := by
  induction members with
  | nil => simp [find?] at h
  | cons m rest ih =>
      obtain ⟨k, w⟩ := m
      cases hr : find? key rest with
      | some u =>
          simp only [find?, hr, Option.some.injEq] at h
          subst h
          exact List.mem_cons_of_mem _ (ih hr)
      | none =>
          simp only [find?, hr] at h
          split at h
          next hk => simp_all
          next => simp at h

/-- The last value of a key, where `null` counts as none. -/
def field? (key : String) (members : List (String × Json)) : Option Json :=
  match find? key members with
  | some null => none
  | found => found

theorem find?_of_field? {key : String} {members : List (String × Json)} {v : Json}
    (h : field? key members = some v) : find? key members = some v := by
  unfold field? at h
  split at h <;> simp_all

theorem sizeOf_lt_of_field? {key : String} {members : List (String × Json)} {v : Json}
    (h : field? key members = some v) : sizeOf v < sizeOf members := by
  have member := find?_mem (find?_of_field? h)
  have inner := List.sizeOf_lt_of_mem member
  simp only [Prod.mk.sizeOf_spec] at inner
  omega

theorem sizeOf_lt_of_item {text : String} {items : List Json} {v : Json} (h : v ∈ items) :
    sizeOf v < sizeOf (array text items) := by
  have inner := List.sizeOf_lt_of_mem h
  simp only [array.sizeOf_spec]
  omega

theorem sizeOf_members_lt (text : String) (members : List (String × Json)) :
    sizeOf members < sizeOf (object text members) := by
  simp only [object.sizeOf_spec]
  omega

end Json

end Cool
