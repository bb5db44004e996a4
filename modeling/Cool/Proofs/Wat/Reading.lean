import Cool.Text.Words
import Cool.Wat.SExpr
import Mathlib.Data.List.Basic

/-! Reading S-expressions. A text is cut into parentheses and words at white space, and the
parentheses group the words. Printing loses nothing: however an S-expression is laid out, it is
what its text reads as. -/

namespace Cool.SExpr

/-- A notion of white space. -/
structure Blanks where
  isBlank : Char → Bool
  space : isBlank ' ' = true
  lineEnd : isBlank '\n' = true
  opening : isBlank '(' = false
  closing : isBlank ')' = false

/-- The white space of every script. -/
def Blanks.unicode : Blanks :=
  ⟨Text.isBlank, by decide, by decide, by decide, by decide⟩

inductive Token where
  | opening
  | closing
  | word (text : String)

mutual

/-- The atoms of an S-expression, in order. -/
def atoms : SExpr → List String
  | atom text => [text]
  | list items => atomsAll items
termination_by structural e => e

def atomsAll : List SExpr → List String
  | [] => []
  | e :: rest => atoms e ++ atomsAll rest
termination_by structural es => es

end

mutual

/-- The parentheses and words of an S-expression. -/
def tokens : SExpr → List Token
  | atom text => [.word text]
  | list items => .opening :: tokensAll items ++ [.closing]
termination_by structural e => e

def tokensAll : List SExpr → List Token
  | [] => []
  | e :: rest => tokens e ++ tokensAll rest
termination_by structural es => es

end

/-! ## The reader -/

/-- Groups tokens, where `items` holds the parts of the innermost open list backwards, and `outer`
those of the lists around it. -/
def assemble (items : List SExpr) : List (List SExpr) → List Token → Option (List SExpr)
  | [], [] => some items.reverse
  | _ :: _, [] => none
  | outer, .opening :: ts => assemble [] (items :: outer) ts
  | [], .closing :: _ => none
  | above :: outer, .closing :: ts => assemble (list items.reverse :: above) outer ts
  | outer, .word text :: ts => assemble (atom text :: items) outer ts

namespace Blanks

variable (b : Blanks)

/-- The word that was read so far, backwards, if there is one. -/
def pending : List Char → List Token
  | [] => []
  | word => [.word (String.ofList word.reverse)]

/-- Cuts characters into tokens, where `word` holds the current word backwards. -/
def tokensFrom (word : List Char) : List Char → List Token
  | [] => pending word
  | c :: rest =>
    if c = '(' then pending word ++ .opening :: tokensFrom [] rest
    else if c = ')' then pending word ++ .closing :: tokensFrom [] rest
    else if b.isBlank c then pending word ++ tokensFrom [] rest
    else tokensFrom (c :: word) rest

/-- The S-expression that a text consists of. -/
def read (text : String) : Option SExpr :=
  match assemble [] [] (b.tokensFrom [] text.toList) with
  | some [e] => some e
  | _ => none

/-- A text of white space only. -/
def IsWhite (text : String) : Prop :=
  ∀ c ∈ text.toList, b.isBlank c = true

/-- A word: not empty, and without white space and parentheses. -/
def IsWord (text : String) : Prop :=
  text ≠ "" ∧ ∀ c ∈ text.toList, b.isBlank c = false ∧ c ≠ '(' ∧ c ≠ ')'

instance (text : String) : Decidable (b.IsWhite text) :=
  List.decidableBAll _ text.toList

instance (text : String) : Decidable (b.IsWord text) :=
  @instDecidableAnd _ _ _ (List.decidableBAll _ text.toList)

end Blanks

/-! ## Grouping -/

mutual

/-- The tokens of an S-expression add it to the parts of the list they stand in. -/
theorem assemble_tokens : ∀ (e : SExpr) (items : List SExpr) (outer : List (List SExpr))
    (ts : List Token), assemble items outer (e.tokens ++ ts) = assemble (e :: items) outer ts
  | atom text, items, outer, ts => by
      rw [tokens, List.singleton_append, assemble]
  | list parts, items, outer, ts => by
      rw [tokens, List.cons_append, List.cons_append, List.append_assoc, assemble,
        assemble_tokensAll parts, List.singleton_append, assemble, List.append_nil,
        List.reverse_reverse]
termination_by structural e => e

theorem assemble_tokensAll : ∀ (es items : List SExpr) (outer : List (List SExpr))
    (ts : List Token),
    assemble items outer (tokensAll es ++ ts) = assemble (es.reverse ++ items) outer ts
  | [], _, _, _ => rfl
  | e :: es, items, outer, ts => by
      rw [tokensAll, List.append_assoc, assemble_tokens e, assemble_tokensAll es,
        List.reverse_cons, List.append_assoc, List.singleton_append]
termination_by structural es => es

end

namespace Blanks

variable {b : Blanks}

theorem read_of_tokens {text : String} {e : SExpr} (h : b.tokensFrom [] text.toList = e.tokens) :
    b.read text = some e := by
  have hone := assemble_tokens e [] [] []
  rw [List.append_nil, ← h] at hone
  rw [read, hone]
  rfl

/-! ## Cutting -/

/-- Whether a word that stands before these characters ends there. -/
def Stops (b : Blanks) : List Char → Prop
  | [] => True
  | c :: _ => c = ')' ∨ b.isBlank c = true

/-- Whether a word that stands before a text, and what follows the text, ends there. -/
def SetsOff (b : Blanks) (text : String) : Prop :=
  ∀ rest, b.Stops rest → b.Stops (text.toList ++ rest)

/-- Whether a text is cut into the given tokens wherever it stands. -/
def Shows (b : Blanks) (text : String) (ts : List Token) : Prop :=
  ∀ rest, b.Stops rest → b.tokensFrom [] (text.toList ++ rest) = ts ++ b.tokensFrom [] rest

theorem tokensFrom_opening (rest : List Char) :
    b.tokensFrom [] ('(' :: rest) = .opening :: b.tokensFrom [] rest := by
  rw [tokensFrom, if_pos rfl]
  rfl

theorem tokensFrom_closing (rest : List Char) :
    b.tokensFrom [] (')' :: rest) = .closing :: b.tokensFrom [] rest := by
  rw [tokensFrom, if_neg (by decide), if_pos rfl]
  rfl

theorem not_paren {c : Char} (hc : b.isBlank c = true) : c ≠ '(' ∧ c ≠ ')' := by
  constructor
  · rintro rfl
    exact Bool.false_ne_true (b.opening.symm.trans hc)
  · rintro rfl
    exact Bool.false_ne_true (b.closing.symm.trans hc)

theorem tokensFrom_blank {word : List Char} {c : Char} (hc : b.isBlank c = true)
    (rest : List Char) : b.tokensFrom word (c :: rest) = pending word ++ b.tokensFrom [] rest := by
  obtain ⟨hopen, hclose⟩ := not_paren hc
  rw [tokensFrom, if_neg hopen, if_neg hclose, if_pos hc]

theorem tokensFrom_blanks {blanks : List Char} (hblanks : ∀ c ∈ blanks, b.isBlank c = true)
    (rest : List Char) : b.tokensFrom [] (blanks ++ rest) = b.tokensFrom [] rest := by
  induction blanks with
  | nil => rfl
  | cons c blanks ih =>
      obtain ⟨hc, hrest⟩ := List.forall_mem_cons.mp hblanks
      rw [List.cons_append, tokensFrom_blank hc, ih hrest]
      rfl

/-- The characters of a word are gathered. -/
theorem tokensFrom_plain {cs : List Char}
    (hcs : ∀ c ∈ cs, b.isBlank c = false ∧ c ≠ '(' ∧ c ≠ ')') (word rest : List Char) :
    b.tokensFrom word (cs ++ rest) = b.tokensFrom (cs.reverse ++ word) rest := by
  induction cs generalizing word with
  | nil => rfl
  | cons c cs ih =>
      obtain ⟨⟨hblank, hopen, hclose⟩, hrest⟩ := List.forall_mem_cons.mp hcs
      rw [List.cons_append, tokensFrom, if_neg hopen, if_neg hclose, hblank,
        if_neg Bool.false_ne_true, ih hrest, List.reverse_cons, List.append_assoc,
        List.singleton_append]

/-- A word is over where it is set off. -/
theorem tokensFrom_of_stops {rest : List Char} (hrest : b.Stops rest) (word : List Char) :
    b.tokensFrom word rest = pending word ++ b.tokensFrom [] rest := by
  cases rest with
  | nil => simp [tokensFrom, pending]
  | cons c rest =>
      rcases hrest with rfl | hc
      · rw [tokensFrom_closing, tokensFrom, if_neg (by decide), if_pos rfl]
      · rw [tokensFrom_blank hc, tokensFrom_blank hc]
        rfl

theorem pending_reverse {cs : List Char} (hcs : cs ≠ []) :
    pending cs.reverse = [.word (String.ofList cs)] := by
  obtain ⟨c, cs', h⟩ := List.exists_cons_of_ne_nil (List.reverse_ne_nil_iff.mpr hcs)
  rw [h, pending, ← h, List.reverse_reverse]
  exact List.cons_ne_nil c cs'

/-! ## Pieces of text -/

theorem isWhite_empty : b.IsWhite "" :=
  fun _ hc => absurd hc List.not_mem_nil

theorem isWhite_singleton {c : Char} (hc : b.isBlank c = true) :
    b.IsWhite (String.singleton c) := by
  intro d hd
  rw [String.toList_singleton, List.mem_singleton] at hd
  exact hd ▸ hc

theorem isWhite_space : b.IsWhite " " :=
  isWhite_singleton b.space

theorem isWhite_lineEnd : b.IsWhite "\n" :=
  isWhite_singleton b.lineEnd

theorem SetsOff.empty : b.SetsOff "" :=
  fun _ hrest => hrest

theorem SetsOff.blank {text : String} {c : Char} (hc : b.isBlank c = true)
    (h : text.toList.head? = some c) : b.SetsOff text := by
  intro rest _
  obtain ⟨cs, hcs⟩ := List.head?_eq_some_iff.mp h
  rw [hcs]
  exact .inr hc

namespace Shows

variable {text before after : String} {ts us : List Token}

theorem empty : b.Shows "" [] :=
  fun _ _ => rfl

theorem word (hword : b.IsWord text) : b.Shows text [.word text] := by
  intro rest hrest
  have hne : text.toList ≠ [] := fun h => hword.1 (String.toList_eq_nil_iff.mp h)
  rw [tokensFrom_plain hword.2, List.append_nil, tokensFrom_of_stops hrest, pending_reverse hne,
    String.ofList_toList]

theorem append (hbefore : b.Shows before ts) (hafter : b.Shows after us)
    (hoff : b.SetsOff after) : b.Shows (before ++ after) (ts ++ us) := by
  intro rest hrest
  rw [String.toList_append, List.append_assoc, hbefore _ (hoff rest hrest), hafter rest hrest,
    List.append_assoc]

theorem afterWhite {white : String} (hwhite : b.IsWhite white) (h : b.Shows text ts) :
    b.Shows (white ++ text) ts := by
  intro rest hrest
  rw [String.toList_append, List.append_assoc, tokensFrom_blanks hwhite, h rest hrest]

theorem beforeWhite {white : String} (hwhite : b.IsWhite white) (h : b.Shows text ts) :
    b.tokensFrom [] (text ++ white).toList = ts := by
  have hstops : b.Stops white.toList := by
    unfold IsWhite at hwhite
    cases hcs : white.toList with
    | nil => trivial
    | cons c cs =>
        rw [hcs] at hwhite
        exact .inr (hwhite c List.mem_cons_self)
  have hnone : b.tokensFrom [] white.toList = [] := by
    have hblanks := tokensFrom_blanks hwhite []
    rwa [List.append_nil] at hblanks
  rw [String.toList_append, h _ hstops, hnone, List.append_nil]

theorem read {e : SExpr} (h : b.Shows text e.tokens) : b.read text = some e := by
  have htokens := h.beforeWhite isWhite_empty
  rw [String.append_empty] at htokens
  exact read_of_tokens htokens

theorem parens (h : b.Shows text ts) :
    b.Shows ("(" ++ text ++ ")") (.opening :: ts ++ [.closing]) := by
  intro rest hrest
  have hclosing : b.Stops (')' :: rest) := .inl rfl
  calc b.tokensFrom [] (("(" ++ text ++ ")").toList ++ rest)
      = b.tokensFrom [] ('(' :: (text.toList ++ (')' :: rest))) := by simp
    _ = .opening :: (ts ++ .closing :: b.tokensFrom [] rest) := by
        rw [tokensFrom_opening, h _ hclosing, tokensFrom_closing]
    _ = .opening :: ts ++ [.closing] ++ b.tokensFrom [] rest := by simp

end Shows

/-! ## One line -/

theorem setsOff_flatRest (es : List SExpr) : b.SetsOff (flatRest es) := by
  cases es with
  | nil => exact .empty
  | cons e es => exact .blank b.space (by simp [flatRest])

mutual

theorem shows_flat : ∀ e : SExpr, (∀ a ∈ e.atoms, b.IsWord a) → b.Shows e.flat e.tokens
  | atom text, h => .word (h text (List.mem_singleton.mpr rfl))
  | list items, h => (shows_flatItems items h).parens
termination_by structural e => e

theorem shows_flatItems : ∀ es : List SExpr, (∀ a ∈ atomsAll es, b.IsWord a) →
    b.Shows (flatItems es) (tokensAll es)
  | [], _ => .empty
  | e :: es, h => by
      obtain ⟨he, hes⟩ := List.forall_mem_append.mp h
      exact (shows_flat e he).append (shows_flatRest es hes) (setsOff_flatRest es)
termination_by structural es => es

theorem shows_flatRest : ∀ es : List SExpr, (∀ a ∈ atomsAll es, b.IsWord a) →
    b.Shows (flatRest es) (tokensAll es)
  | [], _ => .empty
  | e :: es, h => by
      obtain ⟨he, hes⟩ := List.forall_mem_append.mp h
      exact ((shows_flat e he).afterWhite isWhite_space).append (shows_flatRest es hes)
        (setsOff_flatRest es)
termination_by structural es => es

end

/-! ## Several lines -/

section

variable {indent : String}

theorem setsOff_layoutRest (depth : Nat) (es : List SExpr) :
    b.SetsOff (layoutRest indent depth es) := by
  cases es with
  | nil => exact .empty
  | cons e es => exact .blank b.lineEnd (by simp [layoutRest, newline])

/-- After an atom, the first line of a broken list goes on with a blank or ends. -/
theorem setsOff_layoutLead (depth : Nat) (es : List SExpr) :
    b.SetsOff (layoutLead indent depth false es) := by
  cases es with
  | nil => exact .empty
  | cons e es =>
      cases e with
      | atom text => exact .blank b.space (by simp [layoutLead])
      | list items => exact .blank b.lineEnd (by simp [layoutLead, newline])

theorem isWhite_newline (hindent : b.IsWhite indent) (depth : Nat) :
    b.IsWhite (newline indent depth) := by
  intro c hc
  rw [newline, String.toList_append, String.toList_join, List.mem_append] at hc
  rcases hc with hc | hc
  · rw [show c = '\n' by simpa using hc]
    exact b.lineEnd
  · obtain ⟨text, htext, hc⟩ := List.mem_flatMap.mp hc
    rw [List.eq_of_mem_replicate htext] at hc
    exact hindent c hc

mutual

/-- The layout of an S-expression shows its tokens, whether it fits on a line or is broken. -/
theorem shows_layout (hindent : b.IsWhite indent) : ∀ (e : SExpr) (depth : Nat),
    (∀ a ∈ e.atoms, b.IsWord a) → b.Shows (layout indent depth e) e.tokens
  | atom text, depth, h => .word (h text (List.mem_singleton.mpr rfl))
  | list items, depth, h => by
      rw [layout]
      split
      · exact shows_flat (list items) h
      · exact (shows_layoutLead hindent items depth true h).parens
termination_by structural e => e

theorem shows_layoutLead (hindent : b.IsWhite indent) : ∀ (es : List SExpr) (depth : Nat)
    (first : Bool), (∀ a ∈ atomsAll es, b.IsWord a) →
    b.Shows (layoutLead indent depth first es) (tokensAll es)
  | [], _, _, _ => .empty
  | atom text :: es, depth, first, h => by
      obtain ⟨he, hes⟩ := List.forall_mem_append.mp h
      have hword : b.Shows text [.word text] := .word (he text (List.mem_singleton.mpr rfl))
      have hgap : b.IsWhite (if first then "" else " ") := by
        cases first with
        | true => exact isWhite_empty
        | false => exact isWhite_space
      exact (hword.afterWhite hgap).append (shows_layoutLead hindent es depth false hes)
        (setsOff_layoutLead depth es)
  | list items :: es, depth, first, h => by
      obtain ⟨he, hes⟩ := List.forall_mem_append.mp h
      exact ((shows_layout hindent (list items) (depth + 1) he).afterWhite
        (isWhite_newline hindent (depth + 1))).append (shows_layoutRest hindent es depth hes)
        (setsOff_layoutRest depth es)
termination_by structural es => es

theorem shows_layoutRest (hindent : b.IsWhite indent) : ∀ (es : List SExpr) (depth : Nat),
    (∀ a ∈ atomsAll es, b.IsWord a) → b.Shows (layoutRest indent depth es) (tokensAll es)
  | [], _, _ => .empty
  | e :: es, depth, h => by
      obtain ⟨he, hes⟩ := List.forall_mem_append.mp h
      exact ((shows_layout hindent e (depth + 1) he).afterWhite
        (isWhite_newline hindent (depth + 1))).append (shows_layoutRest hindent es depth hes)
        (setsOff_layoutRest depth es)
termination_by structural es => es

end

end

/-- Printing loses nothing. An S-expression of words is what its text reads as: on one line, as
lines of text, and laid out below any number of lists, with any white space as the indent. -/
theorem read_printed (b : Blanks) (e : SExpr) (hwords : ∀ a ∈ e.atoms, b.IsWord a)
    (indent : String) (hindent : b.IsWhite indent) :
    b.read (e.format indent) = some e ∧ b.read e.flat = some e ∧
      ∀ depth, b.read (e.layout indent depth) = some e := by
  have hlayout : ∀ depth, b.Shows (e.layout indent depth) e.tokens := fun depth =>
    shows_layout hindent e depth hwords
  refine ⟨?_, (shows_flat e hwords).read, fun depth => (hlayout depth).read⟩
  exact read_of_tokens ((hlayout 0).beforeWhite isWhite_lineEnd)

/-- A module with a definition that is broken and an atom after a list. -/
def broken : SExpr :=
  list [atom "module", list [atom "rec"], list [],
    list [atom "func", atom "$f", list [atom "param", atom "$x", atom "i32"], atom "unreachable"]]

theorem read_printed_broken :
    (∀ a ∈ broken.atoms, unicode.IsWord a) ∧ unicode.IsWhite "\t " ∧
      broken.format "\t " =
        "(module\n\t (rec)\n\t ()\n\t (func $f\n\t \t (param $x i32)\n\t \t unreachable))\n" ∧
      unicode.read (broken.format "\t ") = some broken ∧ unicode.read broken.flat = some broken :=
  have hwords : ∀ a ∈ broken.atoms, unicode.IsWord a := by decide
  have hwhite : unicode.IsWhite "\t " := by decide
  have hread := read_printed unicode broken hwords "\t " hwhite
  ⟨hwords, hwhite, by decide, hread.1, hread.2.1⟩

end Blanks

end Cool.SExpr
