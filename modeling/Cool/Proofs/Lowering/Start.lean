import Cool.Proofs.Lowering.Representation

/-! Starting a module. The tables of the classes are defined first, and every constant refers to the
table of its class only, so the globals of a module can all be defined. -/

namespace Cool.Lowering

open Wat

/-- The constants of a pool: boxes around an integer or around the characters of a text. -/
theorem Pool.exists_boxed {pool : Pool} {g : Global} (hg : g ∈ pool.globals) :
    ∃ name c contents, g = boxed name c contents ∧ c.isPrimitive = true ∧ c.isBuiltin = true ∧
      ((∃ n, contents = const n) ∨ ∃ text, contents = chars text) := by
  have hstrings : ∀ {k : Nat} {ss : List Symbol}, g ∈ stringDefinitions k ss →
      ∃ name s, g = boxed name .string (chars s) := by
    intro k ss hmem
    induction ss generalizing k with
    | nil => cases hmem
    | cons s ss ih =>
        rcases List.mem_cons.mp hmem with rfl | hmem
        · exact ⟨_, _, rfl⟩
        · exact ih hmem
  rcases List.mem_append.mp hg with hg | hg
  · rcases List.mem_append.mp hg with hg | hg
    · rcases List.mem_cons.mp hg with rfl | hg
      · exact ⟨_, _, _, rfl, rfl, rfl, .inl ⟨1, rfl⟩⟩
      · cases List.mem_singleton.mp hg
        exact ⟨_, _, _, rfl, rfl, rfl, .inl ⟨0, rfl⟩⟩
    · obtain ⟨n, -, rfl⟩ := List.mem_map.mp hg
      exact ⟨_, _, _, rfl, rfl, rfl, .inl ⟨n, rfl⟩⟩
  · obtain ⟨name, text, rfl⟩ := hstrings hg
    exact ⟨_, _, _, rfl, rfl, rfl, .inr ⟨text, rfl⟩⟩

section

variable {m : Module} {ms : Members} {pool : Pool} (hm : Provides m ms pool)
variable (hdistinct : m.NamesDistinct)

include hm hdistinct

/-- A table holds references to functions, one for each of its fields. -/
theorem exists_define_table {c : Name} (hc : c ∈ ms.hierarchy.names) (st : Store) :
    ∃ st', m.define st (tableDefinition ms c) = some st' := by
  have hfields := hdistinct.type?_of_mem (hm.table c hc)
  rw [TypeDef.name] at hfields
  have hentries : (tableDefinition ms c).init = .plain (.structNew (tableType c))
      ((newVirtualFunc c :: (ms.methods c c).map (tableEntry c)).map fun f =>
        .plain (.refFunc f) []) := by
    rw [tableDefinition, List.map_cons, List.map_map]
    rfl
  have hnew := Op.run_structNew (m := m) (t := tableType c) ⟨st, fun _ => none⟩ []
    (by rw [Module.fields?, hfields])
    ((newVirtualFunc c :: (ms.methods c c).map (tableEntry c)).map Val.func) (by simp [tableFields])
  refine Module.exists_define (Eq.trans ?_ hnew)
  rw [hentries, Instr.constant?, constants?_map (fun _ _ => rfl), Option.bind_some]

theorem exists_define_constant {g : Global} (hg : g ∈ pool.globals)
    (hbuiltin : ∀ c : Name, c.isBuiltin = true → c ∈ ms.hierarchy.names) {st : Store}
    (htables : ∀ c ∈ ms.hierarchy.names, (st.globals (tableGlobal c)).isSome) :
    ∃ st', m.define st g = some st' := by
  obtain ⟨name, c, contents, rfl, hprim, hbuilt, hcontents⟩ := Pool.exists_boxed hg
  have hc := hbuiltin c hbuilt
  obtain ⟨table, htable⟩ := Option.isSome_iff_exists.mp (htables c hc)
  have hdefine : ∀ {μ₁ : Memory} {u : Val}, (∀ table, contents.constant? m
      ⟨⟨st, fun _ => none⟩, [table]⟩ = some ⟨μ₁, [u, table]⟩) →
      ∃ st', m.define st (Pool.boxed name c contents) = some st' := by
    intro μ₁ u hu
    refine Module.exists_define ((constant?_boxed hm hdistinct hc hprim hu).trans
      (congrArg _ htable))
  rcases hcontents with ⟨n, rfl⟩ | ⟨text, rfl⟩
  · exact hdefine fun _ => rfl
  · exact hdefine fun table => constant?_chars text _ [table]

/-- A module with the tables and constants of its program can be started. -/
theorem exists_instantiate {cs : List Name}
    (hglobals : m.globals = cs.map (tableDefinition ms) ++ pool.globals)
    (hcs : ∀ c, c ∈ cs ↔ c ∈ ms.hierarchy.names)
    (hbuiltin : ∀ c : Name, c.isBuiltin = true → c ∈ ms.hierarchy.names) :
    ∃ st, m.instantiate = some st := by
  obtain ⟨st₁, hst₁, hall, -⟩ := Module.exists_foldlM_define
    (cs.map (tableDefinition ms)) ⟨fun _ => none, []⟩
    (List.forall_mem_map.mpr fun c hc st' _ => exists_define_table hm hdistinct ((hcs c).mp hc) st')
  have htables : ∀ c ∈ ms.hierarchy.names, (st₁.globals (tableGlobal c)).isSome :=
    fun c hc => hall _ (List.mem_map_of_mem ((hcs c).mpr hc))
  obtain ⟨st, hst, -⟩ := Module.exists_foldlM_define pool.globals st₁
    fun g hg st' hst' => exists_define_constant hm hdistinct hg hbuiltin
      fun c hc => hst' _ (htables c hc)
  refine ⟨st, ?_⟩
  rw [Module.instantiate, hglobals, List.foldlM_append, hst₁]
  exact hst

end

end Cool.Lowering
