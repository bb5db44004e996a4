/-! A stack of frames that binds names. The innermost binding of a name hides the outer ones. -/

namespace Cool

/-- Why a scope cannot be left or extended. -/
inductive ScopeError where
  | nothingToLeave
  | nowhereToBind
deriving DecidableEq, Repr

def ScopeError.message : ScopeError → String
  | nothingToLeave => "invalid scope exit: empty environment"
  | nowhereToBind => "invalid env add: no available scopes"

/-- A frame holds the value of each key it binds, and these keys in the order in which they were
first bound. -/
structure Scope.Frame (κ : Type) (ν : Type) where
  values : κ → Option ν := fun _ => none
  order : List κ := []
  nodup : order.Nodup := by simp
  inStep : ∀ k, k ∈ order ↔ (values k).isSome = true := by simp

/-- Frames from the innermost outwards. -/
structure Scope (κ : Type) (ν : Type) where
  frames : List (Scope.Frame κ ν) := []

namespace Scope

variable {κ ν : Type} [DecidableEq κ]

namespace Frame

/-- Binds a key, in the place of a binding of the same key. -/
def bind (f : Frame κ ν) (key : κ) (value : ν) : Frame κ ν where
  values k := if k = key then some value else f.values k
  order := if (f.values key).isSome then f.order else f.order ++ [key]
  nodup := by
    split
    · exact f.nodup
    · rename_i hnew
      rw [← f.inStep] at hnew
      refine List.nodup_append.mpr ⟨f.nodup, by simp, fun k hk key' hkey => ?_⟩
      rintro rfl
      exact hnew (List.mem_singleton.mp hkey ▸ hk)
  inStep k := by
    by_cases hk : k = key
    · by_cases hbound : (f.values key).isSome = true <;> simp [hk, hbound, f.inStep]
    · by_cases hbound : (f.values key).isSome = true <;> simp [hk, hbound, f.inStep]

/-- The frame that binds the given pairs, a later pair hiding an earlier one of the same key. -/
def ofList (bindings : List (κ × ν)) : Frame κ ν :=
  bindings.foldl (fun f b => f.bind b.1 b.2) {}

end Frame

def depth (s : Scope κ ν) : Nat :=
  s.frames.length

/-- Opens an empty innermost frame. -/
def enter (s : Scope κ ν) : Scope κ ν :=
  ⟨{} :: s.frames⟩

/-- Drops the innermost frame. -/
def exit (s : Scope κ ν) : Except ScopeError (Scope κ ν) :=
  match s.frames with
  | [] => .error .nothingToLeave
  | _ :: rest => .ok ⟨rest⟩

/-- Binds a key in the innermost frame. -/
def add (s : Scope κ ν) (key : κ) (value : ν) : Except ScopeError (Scope κ ν) :=
  match s.frames with
  | [] => .error .nowhereToBind
  | f :: rest => .ok ⟨f.bind key value :: rest⟩

/-- Opens an innermost frame that binds the given pairs. -/
def enterWith (s : Scope κ ν) (bindings : List (κ × ν)) : Scope κ ν :=
  ⟨.ofList bindings :: s.frames⟩

/-- The innermost value of a key. -/
def lookup (s : Scope κ ν) (key : κ) : Option ν :=
  s.frames.findSome? (·.values key)

/-- The distinct members of a list in the order in which they first occur. -/
def distinct : List κ → List κ
  | [] => []
  | k :: rest => k :: (distinct rest).filter (· ≠ k)

/-- The keys of all frames, from the outermost frame inwards. -/
def keys (s : Scope κ ν) : List κ :=
  distinct (s.frames.reverse.flatMap (·.order))

/-- Every key with its innermost value, in the order of the outermost bindings. -/
def visible (s : Scope κ ν) : List (κ × ν) :=
  s.keys.filterMap fun k => (s.lookup k).map fun v => (k, v)

end Scope

end Cool
