import Cool.Pipeline
import Cool.Proofs.Members.Inheritance
import Cool.Proofs.Typing.Program
import Cool.Proofs.Typing.Rules

/-! What an accepted program has gone through: no phase reported anything about it. -/

namespace Cool

namespace Sink

theorem errorCount_recordAll (s : Sink) {ds : List Diagnostic}
    (hds : ∀ d ∈ ds, d.severity = .error) :
    (s.recordAll ds).errorCount = s.errorCount + ds.length := by
  induction ds generalizing s with
  | nil => rfl
  | cons d ds ih =>
      obtain ⟨hd, hrest⟩ := List.forall_mem_cons.mp hds
      have hstep : (s.record d).errorCount = s.errorCount + 1 := by
        simp [errorCount, record, hd, Severity.orError, Diagnostic.isError]
      have htail := ih (s.record d) hrest
      rw [hstep] at htail
      rw [List.length_cons, Nat.add_comm ds.length, ← Nat.add_assoc]
      exact htail

/-- Reports are errors, so a sink without errors has taken none. -/
theorem eq_nil_of_hasErrors {α : Type} {s : Sink} {reports : List α} {diagnostic : α → Diagnostic}
    (hseverity : ∀ r, (diagnostic r).severity = .error)
    (hs : ¬ (s.recordAll (reports.map diagnostic)).hasErrors = true) : reports = [] := by
  have hall : ∀ d ∈ reports.map diagnostic, d.severity = .error := by simp [hseverity]
  have hcount := errorCount_recordAll s hall
  have hnone : (s.recordAll (reports.map diagnostic)).errorCount = 0 := by
    simpa [hasErrors] using hs
  rw [hnone, List.length_map] at hcount
  exact List.eq_nil_of_length_eq_zero (by omega)

end Sink

namespace Verdict

/-- Whether a program is accepted with members that pass a test. -/
def acceptedWith (test : Members → Bool) : Verdict → Bool
  | accepted ms => test ms
  | _ => false

theorem exists_of_acceptedWith {test : Members → Bool} {v : Verdict}
    (hv : v.acceptedWith test = true) : ∃ ms, v = .accepted ms ∧ test ms = true := by
  cases v with
  | accepted ms => exact ⟨ms, rfl, hv⟩
  | halted stage errors => cases hv
  | fault f => cases hv

end Verdict

namespace Pipeline

theorem analyzeTypes_accepted {p : Program} {ms ms' : Members} {sink : Sink} {log : List String}
    (ha : (analyzeTypes p ms sink log).verdict = .accepted ms') :
    ms' = ms ∧ Typing.AcceptsProgram ms p (analyzeTypes p ms sink log).program := by
  unfold analyzeTypes at ha ⊢
  dsimp only at ha ⊢
  split at ha
  · cases ha
  · rename_i hhalted
    rw [if_neg hhalted]
    split at ha
    · cases ha
    · rename_i herrors
      rw [if_neg herrors]
      have hreports := Sink.eq_nil_of_hasErrors (fun _ => rfl) herrors
      refine ⟨?_, Typing.checkProgram_silent hreports (by simpa using hhalted)⟩
      cases ha
      rfl

theorem analyzeMembers_accepted {p : Program} {h : Hierarchy} {ms : Members} {sink : Sink}
    {log : List String} (ha : (analyzeMembers p h sink log).verdict = .accepted ms) :
    Members.build h = .ok (ms, []) ∧
      Typing.AcceptsProgram ms p (analyzeMembers p h sink log).program := by
  unfold analyzeMembers at ha ⊢
  cases hb : Members.build h with
  | error f =>
      rw [hb] at ha
      cases ha
  | ok built =>
      obtain ⟨ms', reports⟩ := built
      simp only [hb] at ha ⊢
      split at ha
      · cases ha
      · rename_i herrors
        rw [if_neg herrors]
        have hreports := Sink.eq_nil_of_hasErrors (fun _ => rfl) herrors
        obtain ⟨rfl, hprogram⟩ := analyzeTypes_accepted ha
        exact ⟨by rw [hreports], hprogram⟩

/-- An accepted program has members without a report, and its classes are let pass. -/
theorem analyze_accepted {p : Program} {ms : Members}
    (ha : (analyze p).verdict = .accepted ms) :
    Members.build (Hierarchy.build p).1 = .ok (ms, []) ∧
      Typing.AcceptsProgram ms p (analyze p).program := by
  unfold analyze at ha ⊢
  dsimp only at ha ⊢
  split at ha
  · cases ha
  · rename_i herrors
    rw [if_neg herrors]
    exact analyzeMembers_accepted ha

/-! ## Class by class -/

open Typing (Context AcceptsClass AcceptsFeature AcceptsProgram)

/-- A class of an accepted program before and after checking. -/
structure CheckedClass (ms : Members) (p p' : Program) (d d' : ClassDecl) : Prop where
  mem : d ∈ p.classes
  mem' : d' ∈ p'.classes
  name : d'.name = d.name
  name_mem : d.name ∈ ms.hierarchy.names
  declared : ms.hierarchy.decl? d.name = some d
  found : p'.class? d.name = some d'
  not_builtin : d.name.isBuiltin = false
  features : List.Forall₂ (AcceptsFeature ⟨ms, d.name⟩
    (Typing.classScope (ms.attributes d.name d.name))) d.features d'.features

/-- An accepted program: the builtin classes are as they should be, and the others are checked. -/
structure Analyzed (p : Program) (ms : Members) (p' : Program) : Prop where
  coherent : ms.Coherent
  installed : ∀ c ∈ ms.hierarchy.names, (⟨ms, c⟩ : Context).Installed
  builtin : ∀ d ∈ Builtin.classes, ms.hierarchy.decl? d.name = some d
  own : ∀ c ∈ ms.hierarchy.names, c.isBuiltin = false →
    ∃ d d', d.name = c ∧ CheckedClass ms p p' d d'
  checked : ∀ d ∈ p.classes, ∃ d', CheckedClass ms p p' d d'
  listed : ∀ d' ∈ p'.classes, ∃ d, CheckedClass ms p p' d d'

theorem AcceptsClass.name {ms : Members} {d d' : ClassDecl} (h : AcceptsClass ms d d') :
    d'.name = d.name := by
  unfold AcceptsClass at h
  split at h
  · rw [h]
  · obtain ⟨fs, rfl, -⟩ := h
    rfl

theorem classNames_eq {ms : Members} {ds ds' : List ClassDecl}
    (h : List.Forall₂ (AcceptsClass ms) ds ds') : ds'.map (·.name) = ds.map (·.name) := by
  induction h with
  | nil => rfl
  | cons hd _ ih => rw [List.map_cons, List.map_cons, AcceptsClass.name hd, ih]

theorem analyzed_of_accepts {p p' : Program} {ms : Members}
    (hb : Members.build (Hierarchy.build p).1 = .ok (ms, [])) (hp : AcceptsProgram ms p p') :
    Analyzed p ms p' := by
  have hv := Members.valid_of_build hb
  obtain ⟨hco, hh⟩ := Members.coherent_of_build (Hierarchy.rooted_of_valid hv) hb
  obtain ⟨-, hnodup, -⟩ := Hierarchy.build_eq_nil (Hierarchy.build_eq_nil_iff_valid.mpr hv)
  have hnames : ms.hierarchy.names = (Builtin.classes ++ p.classes).map (·.name) := by
    rw [hh, Hierarchy.names_build hv]
  rw [Hierarchy.names_build hv, List.map_append] at hnodup
  have hsame := classNames_eq hp.classes
  have hchecked : ∀ {d d' : ClassDecl}, d ∈ p.classes → d' ∈ p'.classes → AcceptsClass ms d d' →
      CheckedClass ms p p' d d' := by
    intro d d' hd hd' haccepts
    have hmem : d.name ∈ ms.hierarchy.names := by
      rw [hnames, List.map_append]
      exact List.mem_append_right _ (List.mem_map_of_mem hd)
    have hname := AcceptsClass.name haccepts
    obtain ⟨own, hof⟩ := hco.exists_of? hmem
    rw [AcceptsClass, hof] at haccepts
    obtain ⟨fs, rfl, hfs⟩ := haccepts
    refine ⟨hd, hd', hname, hmem, ?_, ?_, ?_, ?_⟩
    · rw [hh]
      exact Hierarchy.decl?_of_mem hv (List.mem_append_right _ hd)
    · rw [← hname]
      exact find?_of_nodup_map (hsame ▸ (List.nodup_append.mp hnodup).2.1) hd'
    · refine Bool.eq_false_iff.mpr fun hbuiltin => ?_
      obtain ⟨b, hb, hbd⟩ := Hierarchy.isBuiltin_iff.mp hbuiltin
      exact (List.nodup_append.mp hnodup).2.2 _ (List.mem_map_of_mem hb) _
        (List.mem_map_of_mem hd) hbd
    · rwa [Members.attributes_of hof (hco.ne_selfType hmem)]
  have hown : ∀ d ∈ p.classes, ∃ d', CheckedClass ms p p' d d' := by
    intro d hd
    obtain ⟨d', hd', haccepts⟩ := Members.Site.exists_left_of_forall₂ hp.classes.flip hd
    exact ⟨d', hchecked hd hd' haccepts⟩
  refine ⟨hco, fun c hc => Typing.installed_of_build hb hc, fun d hd => ?_, ?_, hown, ?_⟩
  · rw [hh]
    exact Hierarchy.decl?_of_mem hv (List.mem_append_left _ hd)
  · intro c hc hbuiltin
    rw [hnames] at hc
    obtain ⟨d, hd, rfl⟩ := List.mem_map.mp hc
    rcases List.mem_append.mp hd with hd | hd
    · exact absurd (Hierarchy.isBuiltin_iff.mpr ⟨d, hd, rfl⟩) (Bool.eq_false_iff.mp hbuiltin)
    · obtain ⟨d', hd'⟩ := hown d hd
      exact ⟨d, d', rfl, hd'⟩
  · intro d' hd'
    obtain ⟨d, hd, haccepts⟩ := Members.Site.exists_left_of_forall₂ hp.classes hd'
    exact ⟨d, hchecked hd hd' haccepts⟩

/-- What is known of an accepted program, class by class. -/
theorem analyzed_of_accepted {p : Program} {ms : Members}
    (ha : (analyze p).verdict = .accepted ms) : Analyzed p ms (analyze p).program :=
  analyzed_of_accepts (analyze_accepted ha).1 (analyze_accepted ha).2

namespace CheckedClass

variable {p p' : Program} {ms : Members} {d d' : ClassDecl} (h : CheckedClass ms p p' d d')

include h

/-- Checking an attribute changes its initializer only. -/
theorem attribute_of_mem {a' : Attribute} (ha : .attr a' ∈ d'.features) :
    ∃ a, .attr a ∈ d.features ∧ a.name = a'.name ∧ a.type = a'.type := by
  obtain ⟨f, hf, haccepts⟩ := Members.Site.exists_left_of_forall₂ h.features ha
  cases haccepts with
  | attr hinit hfit => exact ⟨_, hf, rfl, rfl⟩

theorem mem_of_attribute {a : Attribute} (ha : .attr a ∈ d.features) :
    ∃ a', .attr a' ∈ d'.features ∧ a'.type = a.type := by
  obtain ⟨f, hf, haccepts⟩ := Members.Site.exists_left_of_forall₂ h.features.flip ha
  cases haccepts with
  | attr hinit hfit => exact ⟨_, hf, rfl⟩

/-- Checking a method changes its body only. -/
theorem method_of_mem {m' : Method} (hm : .method m' ∈ d'.features) :
    ∃ m, .method m ∈ d.features ∧ m.name = m'.name ∧ m.formals = m'.formals := by
  obtain ⟨f, hf, haccepts⟩ := Members.Site.exists_left_of_forall₂ h.features hm
  cases haccepts with
  | method hbody hresult => exact ⟨_, hf, rfl, rfl⟩

end CheckedClass

namespace Analyzed

variable {p p' : Program} {ms : Members} (h : Analyzed p ms p')

include h

theorem mem_of_builtin {d : ClassDecl} (hd : d ∈ Builtin.classes) :
    d.name ∈ ms.hierarchy.names := by
  have hdecl := h.builtin d hd
  rw [Hierarchy.decl?, Option.map_eq_some_iff] at hdecl
  obtain ⟨e, he, -⟩ := hdecl
  exact Hierarchy.has_iff.mp (by rw [Hierarchy.has, he]; rfl)

/-- The methods that a builtin class declares can be called on it. -/
theorem method?_builtin {d : ClassDecl} (hd : d ∈ Builtin.classes) {x : Name}
    (hx : x ∈ (d.features.filterMap Feature.method?).map (·.name)) :
    ∃ e, ms.method? d.name x d.name = some e := by
  have hc := h.mem_of_builtin hd
  obtain ⟨m, hm, rfl⟩ := List.mem_map.mp hx
  obtain ⟨e, he, hdeclares⟩ := h.coherent.declared_method hc (h.builtin d hd)
    (Feature.mem_of_method? hm)
  exact ⟨e, hdeclares.name ▸ h.coherent.method?_of_mem hc he d.name⟩

end Analyzed

end Pipeline

end Cool
