import Cool.Proofs.Lowering.Names
import Cool.Proofs.Tree.Shown

/-! The lines of a dump. Each kind of line determines what it shows, the line of a position looks
like no other, and texts between quotes stay on one line. -/

namespace Cool

/-! ## Trees as they are written -/

/-- Whether a name is an identifier that starts with a letter. -/
def Name.isWord (n : Name) : Bool :=
  n.isIdentifier && n.text.toList.head?.any Char.isAlpha

/-- Whether a name stands for the type of an expression. -/
def Name.isAnnotation (n : Name) : Bool :=
  n = .anonymous || n = .noType || n.isWord

/-- The names that an expression gives itself, apart from its parts. -/
def Expr.words : Expr → List Name
  | .assign _ name _ | .object _ name | .new _ name | .dispatch _ _ name _ => [name]
  | .staticDispatch _ _ target method _ => [target, method]
  | .letIn _ name type _ _ => [name, type]
  | _ => []

/-- Whether an integer token is made of digits, and an operator is one of the language. -/
def Expr.isLexical : Expr → Bool
  | .int _ token => token.toList.all Char.isDigit
  | .binary _ op _ _ => op.tag?.isSome
  | .unary _ op _ => op.tag?.isSome
  | _ => true

/-- Whether the names of a node are words, its integer token is made of digits, and its operator is
one of the language. -/
def Node.isPlain : Node → Bool
  | .program _ => true
  | .classDecl c => c.name.isWord && (c.parent = .anonymous || c.parent.isWord)
  | .method m => m.name.isWord && m.result.isWord
  | .attr a => a.name.isWord && a.type.isWord
  | .formal f => f.name.isWord && f.type.isWord
  | .branch b => b.name.isWord && b.type.isWord
  | .expr e => e.type.isAnnotation && e.words.all Name.isWord && e.isLexical

namespace Dump

/-! ## Lines -/

theorem indent_inj {n : Nat} {s t : String} (h : indent n s = indent n t) : s = t :=
  (String.append_right_inj _).mp h

theorem toList_indent (n : Nat) (s : String) :
    (indent n s).toList = List.replicate n ' ' ++ s.toList := by
  rw [indent, String.toList_append, String.toList_ofList]

theorem position_inj {n : Nat} {s s' : Span} (h : position n s = position n s') :
    s.shown = s'.shown := by
  have hline := Lowering.intRepr_injective ((String.append_right_inj _).mp (indent_inj h))
  rw [Span.shown, Span.shown, hline]

theorem typeLine_inj {n : Nat} {t t' : Name} (h : typeLine n t = typeLine n t') :
    t.shownType = t'.shownType := by
  rw [typeLine_eq, typeLine_eq] at h
  have htext := (String.append_right_inj _).mp (indent_inj h)
  cases t <;> cases t' <;> exact congrArg Name.named htext

theorem parentText_inj {p p' : Name} (h : parentText p = parentText p') :
    p.shownParent = p'.shownParent := by
  cases p <;> cases p' <;> exact congrArg Name.named h

theorem text_inj {x y : Name} (hx : x.isWord = true) (hy : y.isWord = true)
    (h : x.text = y.text) : x = y := by
  rw [Name.isWord, Bool.and_eq_true] at hx hy
  exact Name.text_inj hx.1 hy.1 h

theorem word_inj {n : Nat} {x y : Name} (hx : x.isWord = true) (hy : y.isWord = true)
    (h : indent n x.text = indent n y.text) : x = y :=
  text_inj hx hy (indent_inj h)

/-- The text that an escaped one stands for. -/
def unescape : List Char → List Char
  | [] => []
  | '\\' :: 'n' :: rest => '\n' :: unescape rest
  | '\\' :: 't' :: rest => '\t' :: unescape rest
  | '\\' :: c :: rest => c :: unescape rest
  | c :: rest => c :: unescape rest

theorem unescape_escapeChar (c : Char) (rest : List Char) :
    unescape (escapeChar c ++ rest) = c :: unescape rest := by
  unfold escapeChar
  split
  · simp [unescape]
  · simp [unescape]
  · simp [unescape]
  · simp [unescape]
  · rename_i hslash _ _ _
    rw [List.singleton_append, unescape]
    · exact fun _ h => absurd h hslash
    · exact fun _ h => absurd h hslash
    · exact fun _ _ h => absurd h hslash

theorem unescape_flatMap (cs : List Char) : unescape (cs.flatMap escapeChar) = cs := by
  induction cs with
  | nil => rfl
  | cons c cs ih => rw [List.flatMap_cons, unescape_escapeChar, ih]

theorem quoted_inj {s t : String} (h : quoted s = quoted t) : s = t := by
  have hlist := String.ofList_injective h
  rw [List.cons_append, List.cons_append, List.cons_inj_right, List.append_left_inj] at hlist
  have hchars := congrArg unescape hlist
  rw [unescape_flatMap, unescape_flatMap] at hchars
  exact String.toList_injective hchars

/-! ## Where lists end -/

/-- Lines that do not start with a node at the given depth. -/
def Stops (n : Nat) (rest : List String) : Prop :=
  ∀ span tail, rest ≠ position n span :: tail

theorem stops_nil (n : Nat) : Stops n [] :=
  fun _ _ => nofun

theorem stops_indent {n : Nat} {s : String} (hs : ∀ t, s ≠ "#" ++ t) (rest : List String) :
    Stops n (indent n s :: rest) := by
  intro span tail h
  exact hs _ (indent_inj (List.cons.inj h).1)

theorem stops_close (n : Nat) (rest : List String) : Stops n (indent n ")" :: rest) := by
  refine stops_indent (fun t ht => ?_) rest
  have hchars := congrArg String.toList ht
  rw [String.toList_append] at hchars
  cases hchars

theorem stops_word {x : Name} (hx : x.isWord = true) (n : Nat) (rest : List String) :
    Stops n (indent n x.text :: rest) := by
  refine stops_indent (fun t ht => ?_) rest
  rw [Name.isWord, Bool.and_eq_true] at hx
  have hmem : '#' ∉ x.text.toList := Name.not_mem_text hx.1 (by decide)
  rw [ht, String.toList_append] at hmem
  exact hmem (List.mem_append_left _ (List.mem_singleton_self _))

/-- The type of an expression is less indented than its parts. -/
theorem stops_typeLine (n : Nat) (t : Name) (rest : List String) :
    Stops (n + 2) (typeLine n t :: rest) := by
  intro span tail h
  have hchars := congrArg String.toList (List.cons.inj h).1
  rw [typeLine_eq, position, toList_indent, toList_indent, List.replicate_add, List.append_assoc,
    List.append_right_inj, String.toList_append] at hchars
  cases hchars

/-! ## Tags -/

/-- The forms of expressions that a dump tells apart. -/
inductive Kind where
  | noExpr
  | block
  | assign
  | dispatch
  | staticDispatch
  | cond
  | loop
  | caseOf
  | letIn
  | binary (op : BinaryOp)
  | unary (op : UnaryOp)
  | int
  | string
  | bool
  | new
  | object
deriving DecidableEq

namespace Kind

def tag : Kind → String
  | noExpr => "_no_expr"
  | block => "_block"
  | assign => "_assign"
  | dispatch => "_dispatch"
  | staticDispatch => "_static_dispatch"
  | cond => "_cond"
  | loop => "_loop"
  | caseOf => "_typcase"
  | letIn => "_let"
  | binary op => binaryTag op
  | unary op => unaryTag op
  | int => "_int"
  | string => "_string"
  | bool => "_bool"
  | new => "_new"
  | object => "_object"

/-- Whether the operator of a form, if it has one, is one of the language. -/
def isKnown : Kind → Bool
  | binary op => op.tag?.isSome
  | unary op => op.tag?.isSome
  | _ => true

def all : List Kind :=
  [noExpr, block, assign, dispatch, staticDispatch, cond, loop, caseOf, letIn, int, string, bool,
    new, object] ++ BinaryOp.all.map binary ++ UnaryOp.all.map unary

theorem mem_all {k : Kind} (hk : k.isKnown = true) : k ∈ all := by
  cases k with
  | binary op =>
      cases op with
      | unknown i => cases hk
      | _ => decide
  | unary op =>
      cases op with
      | unknown i => cases hk
      | _ => decide
  | _ => decide

theorem tag_inj {k k' : Kind} (hk : k.isKnown = true) (hk' : k'.isKnown = true)
    (h : k.tag = k'.tag) : k = k' := by
  have hall : ∀ k ∈ all, ∀ k' ∈ all, k.tag = k'.tag → k = k' := by
    decide +kernel
  exact hall k (mem_all hk) k' (mem_all hk') h

end Kind

end Dump

/-- The form of an expression. One that is left out is shown as an absent one. -/
def Expr.kind : Expr → Dump.Kind
  | missing | noExpr _ => .noExpr
  | block _ _ => .block
  | assign _ _ _ => .assign
  | dispatch _ _ _ _ => .dispatch
  | staticDispatch _ _ _ _ _ => .staticDispatch
  | cond _ _ _ _ => .cond
  | loop _ _ _ => .loop
  | caseOf _ _ _ => .caseOf
  | letIn _ _ _ _ _ => .letIn
  | binary _ op _ _ => .binary op
  | unary _ op _ => .unary op
  | int _ _ => .int
  | string _ _ => .string
  | bool _ _ => .bool
  | new _ _ => .new
  | object _ _ => .object

namespace Dump

/-! ## Lines and text -/

/-- A line without a line end in it. -/
def OneLine (l : String) : Prop :=
  '\n' ∉ l.toList

theorem oneLine_indent {s : String} (hs : OneLine s) (n : Nat) : OneLine (indent n s) := by
  rw [OneLine, toList_indent, List.mem_append, not_or]
  exact ⟨fun hmem => absurd (List.eq_of_mem_replicate hmem) (by decide), hs⟩

theorem oneLine_position (n : Nat) (span : Span) : OneLine (position n span) := by
  refine oneLine_indent ?_ n
  rw [OneLine, String.toList_append, List.mem_append, not_or]
  exact ⟨by decide, Lowering.not_mem_intRepr (by decide) (by decide) span.line⟩

theorem oneLine_word {x : Name} (hx : x.isWord = true) : OneLine x.text := by
  rw [Name.isWord, Bool.and_eq_true] at hx
  exact Name.not_mem_text hx.1 (by decide)

theorem oneLine_typeLine {t : Name} (ht : t.isAnnotation = true) (n : Nat) :
    OneLine (typeLine n t) := by
  have htext : OneLine t.shownType.text := by
    simp only [Name.isAnnotation, Bool.or_eq_true, decide_eq_true_eq] at ht
    rcases ht with (rfl | rfl) | ht
    · unfold OneLine
      decide
    · unfold OneLine
      decide
    · have hword := oneLine_word ht
      cases t with
      | anonymous => cases ht
      | named s => exact hword
  rw [typeLine_eq]
  refine oneLine_indent ?_ n
  rw [OneLine, String.toList_append, List.mem_append, not_or]
  exact ⟨by decide, htext⟩

theorem oneLine_quoted (s : String) : OneLine (quoted s) := by
  have hchar : ∀ c, '\n' ∉ escapeChar c := by
    intro c
    unfold escapeChar
    split
    · decide
    · decide
    · decide
    · decide
    · rename_i hnot _ _
      rw [List.mem_singleton]
      exact fun h => hnot h.symm
  rw [OneLine, quoted, String.toList_ofList]
  intro hmem
  rcases List.mem_append.mp hmem with hmem | hmem
  · rcases List.mem_cons.mp hmem with hmem | hmem
    · exact absurd hmem (by decide)
    · obtain ⟨c, -, hc⟩ := List.mem_flatMap.mp hmem
      exact hchar c hc
  · exact absurd (List.mem_singleton.mp hmem) (by decide)

theorem Kind.oneLine_tag {k : Kind} (hk : k.isKnown = true) : OneLine k.tag := by
  have hall : ∀ k ∈ all, '\n' ∉ k.tag.toList := by
    decide +kernel
  exact hall k (mem_all hk)

theorem toList_unlines (ls : List String) :
    (unlines ls).toList = ls.flatMap fun l => l.toList ++ ['\n'] := by
  rw [unlines, String.toList_join, List.flatMap_map]
  simp only [String.toList_append]
  rfl

/-- What stands before the first line end is determined. -/
theorem line_inj {cs cs' rest rest' : List Char} (hcs : '\n' ∉ cs) (hcs' : '\n' ∉ cs')
    (h : cs ++ '\n' :: rest = cs' ++ '\n' :: rest') : cs = cs' ∧ rest = rest' := by
  induction cs generalizing cs' with
  | nil =>
      cases cs' with
      | nil => exact ⟨rfl, (List.cons.inj h).2⟩
      | cons c' cs' => exact absurd ((List.cons.inj h).1 ▸ List.mem_cons_self) hcs'
  | cons c cs ih =>
      cases cs' with
      | nil => exact absurd ((List.cons.inj h).1 ▸ List.mem_cons_self) hcs
      | cons c' cs' =>
          obtain ⟨hhead, htail⟩ := List.cons.inj h
          obtain ⟨hcs, hrest⟩ := ih (List.not_mem_of_not_mem_cons hcs)
            (List.not_mem_of_not_mem_cons hcs') htail
          exact ⟨by rw [hhead, hcs], hrest⟩

theorem unlines_inj {ls ls' : List String} (hls : ∀ l ∈ ls, OneLine l)
    (hls' : ∀ l ∈ ls', OneLine l) (h : unlines ls = unlines ls') : ls = ls' := by
  have hchars := congrArg String.toList h
  rw [toList_unlines, toList_unlines] at hchars
  clear h
  induction ls generalizing ls' with
  | nil =>
      cases ls' with
      | nil => rfl
      | cons l' ls' => simp at hchars
  | cons l ls ih =>
      cases ls' with
      | nil => simp at hchars
      | cons l' ls' =>
          obtain ⟨hl, hls⟩ := List.forall_mem_cons.mp hls
          obtain ⟨hl', hls'⟩ := List.forall_mem_cons.mp hls'
          simp only [List.flatMap_cons, List.append_assoc, List.singleton_append] at hchars
          obtain ⟨hhead, htail⟩ := line_inj hl hl' hchars
          rw [String.toList_injective hhead, ih hls hls' htail]

end Dump

end Cool
