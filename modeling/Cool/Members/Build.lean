import Cool.Members.Basic
import Cool.Members.Problem

/-! Resolving the members of every class, parents first, and finding what is wrong with them. An
override keeps the slot of the method it overrides; every other member takes the next free slot. -/

namespace Cool.Members

/-- The members a class declares itself, as far as they were accepted, and what was reported. -/
structure Draft where
  attributes : List AttributeEntry := []
  methods : List MethodEntry := []
  attributeCount : Nat
  methodCount : Nat
  reports : List (Report Problem) := []

/-- Where a class stands while its features are resolved: the members of its parent are known. -/
structure Site where
  hierarchy : Hierarchy
  cls : Name
  parent? : Option ClassMembers

namespace Site

def typeDefined (site : Site) (t : Name) : Bool :=
  decide (t = .selfType) || site.hierarchy.has t

def inheritedAttribute? (site : Site) (name : Name) : Option AttributeEntry :=
  site.parent?.bind fun p => p.attributes.find? (·.name = name)

def inheritedMethod? (site : Site) (name : Name) : Option MethodEntry :=
  site.parent?.bind fun p => p.methods.find? (·.name = name)

/-- The name of the parent, for messages about what is inherited from it. -/
def parentName (site : Site) : Name :=
  match site.parent? with
  | some p => p.cls
  | none => .anonymous

/-- Why an attribute is refused. -/
def refusal? (site : Site) (draft : Draft) (a : Attribute) : Option Problem :=
  if (site.inheritedAttribute? a.name).isSome then
    some (.attributeOverride a.name site.parentName)
  else if a.name = .self then some .attributeNamedSelf
  else if draft.attributes.any (·.name = a.name) then some (.duplicateAttribute a.name)
  else none

/-- Whether the type of an attribute is known. The contents of builtin values have a type of their
own. -/
def attributeTypeDefined (site : Site) (type : Name) : Bool :=
  (decide (type = .primSlot) && site.cls.isBuiltin) || site.typeDefined type

/-- Adds an attribute. One of an undefined type is reported and still added, so that its uses are
not reported as well. -/
def addAttribute (site : Site) (draft : Draft) (a : Attribute) : Draft :=
  match site.refusal? draft a with
  | some problem => { draft with reports := draft.reports ++ [⟨a.span, problem⟩] }
  | none =>
    { draft with
      attributes := draft.attributes ++ [⟨a.name, a.type, draft.attributeCount, site.cls, a.span⟩]
      attributeCount := draft.attributeCount + 1
      reports :=
        if site.attributeTypeDefined a.type then draft.reports
        else draft.reports ++ [⟨a.span, .attributeType a.name a.type⟩] }

/-- Why a formal is refused after those already accepted. -/
def formalProblem? (site : Site) (accepted : List Parameter) (f : Formal) : Option Problem :=
  if f.type = .selfType then some (.formalSelfType f.name)
  else if site.hierarchy.has f.type then
    if f.name = .self then some .formalNamedSelf
    else if accepted.any (·.name = f.name) then some (.duplicateFormal f.name)
    else none
  else some (.formalType f.name f.type)

/-- The parameters of a method, without the formals that are refused. -/
def parameters (site : Site) : List Parameter → List Formal →
    List Parameter × List (Report Problem)
  | accepted, [] => (accepted, [])
  | accepted, f :: rest =>
    match site.formalProblem? accepted f with
    | some problem =>
      let (params, reports) := site.parameters accepted rest
      (params, ⟨f.span, problem⟩ :: reports)
    | none => site.parameters (accepted ++ [⟨f.name, f.type⟩]) rest

/-- The parameters whose types differ from those of the overridden method. -/
def argumentMismatches : Nat → List Parameter → List Parameter → List Mismatch
  | i, found :: fs, expected :: es =>
    let rest := argumentMismatches (i + 1) fs es
    if found.type = expected.type then rest
    else .argument i expected.name expected.type found.name found.type :: rest
  | _, _, _ => []

/-- How a method differs from the one it overrides. Where their numbers of formals differ nothing
else is compared. -/
def mismatches (m : Method) (params : List Parameter) (overridden : MethodEntry) :
    List Mismatch :=
  if m.formals.length ≠ overridden.params.length then
    [.count overridden.params.length m.formals.length]
  else
    argumentMismatches 0 params overridden.params ++
      (if m.result = overridden.result then [] else [.result overridden.result m.result])

/-- Adds a method that overrides nothing, in the next free slot. -/
def introduce (site : Site) (draft : Draft) (m : Method) (params : List Parameter) : Draft :=
  { draft with
    methods := draft.methods ++
      [⟨m.name, params, m.result, .introduced, draft.methodCount, site.cls, site.cls, m.span⟩]
    methodCount := draft.methodCount + 1 }

/-- Overrides an inherited method, whose signature must be repeated exactly. -/
def override (site : Site) (draft : Draft) (m : Method) (params : List Parameter)
    (overridden : MethodEntry) : Draft :=
  let found := mismatches m params overridden
  let reports := found.map fun mismatch =>
    ⟨m.span, .override m.name site.parentName mismatch overridden.definer overridden.span⟩
  if found.isEmpty && params.length == overridden.params.length then
    { draft with
      methods := draft.methods ++
        [⟨m.name, params, m.result, .overridden, overridden.slot, overridden.intro, site.cls,
          m.span⟩] }
  else { draft with reports := draft.reports ++ reports }

/-- Adds a method, or reports why it cannot be. -/
def addMethod (site : Site) (draft : Draft) (m : Method) : Draft :=
  if draft.methods.any (·.name = m.name) then
    { draft with reports := draft.reports ++ [⟨m.span, .duplicateMethod m.name⟩] }
  else
    let (params, reports) := site.parameters [] m.formals
    let draft := { draft with reports := draft.reports ++ reports }
    if site.typeDefined m.result then
      match site.inheritedMethod? m.name with
      | none => site.introduce draft m params
      | some overridden => site.override draft m params overridden
    else { draft with reports := draft.reports ++ [⟨m.span, .returnType m.result⟩] }

def addFeature (site : Site) (draft : Draft) : Feature → Draft
  | .attr a => site.addAttribute draft a
  | .method m => site.addMethod draft m

/-- The inherited methods, each replaced by its override if there is one, and after them the
methods the class introduces. -/
def allMethods (inherited own : List MethodEntry) : List MethodEntry :=
  inherited.map (fun m =>
    match own.find? (·.name = m.name) with
    | some m => m
    | none => { m with origin := .inherited }) ++
    own.filter (·.origin = .introduced)

end Site

/-- Adds the members of a class whose parent was added before. -/
def addClass (state : Members × List (Report Problem)) (cls : Name) :
    Members × List (Report Problem) :=
  let (ms, reports) := state
  match ms.hierarchy.decl? cls with
  | none => (ms, reports)
  | some decl =>
    let parent? := (ms.hierarchy.parent? cls).map fun p => (ms.of? p).getD { cls := p }
    let site : Site := ⟨ms.hierarchy, cls, parent?⟩
    let draft := decl.features.foldl site.addFeature
      { attributeCount := ms.attributeCount, methodCount := ms.methodCount }
    let inherited := parent?.getD { cls := cls }
    let entry : ClassMembers :=
      ⟨cls, inherited.attributes ++ draft.attributes,
        Site.allMethods inherited.methods draft.methods⟩
    ({ ms with
        classes := ms.classes ++ [entry]
        attributeCount := draft.attributeCount
        methodCount := draft.methodCount },
      reports ++ draft.reports)

/-- Adds a class that was not added yet, after its ancestors, of which at most `fuel` are
followed. -/
def addBehindParent : Nat → Members × List (Report Problem) → Name →
    Members × List (Report Problem)
  | 0, state, _ => state
  | fuel + 1, state, cls =>
    let state := match state.1.hierarchy.parent? cls with
      | some p => if (state.1.of? p).isSome then state else addBehindParent fuel state p
      | none => state
    if (state.1.of? cls).isSome then state else addClass state cls

/-- The members of every class of a valid hierarchy. -/
def build (h : Hierarchy) : Except Fault (Members × List (Report Problem)) :=
  if h.valid then .ok (h.names.foldl (addBehindParent (h.size + 1)) ({ hierarchy := h }, []))
  else .error .invalidHierarchy

end Cool.Members
