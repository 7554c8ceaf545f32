import Mathlib.Algebra.Group.Nat.Even
import Mathlib.Data.List.Basic
import TopDown.Proofs.Text.Words
import TopDown.Text.Tex

/-!
# What a text means to LaTeX

LaTeX reads a backslash together with the character after it, so a text is a list of *tokens*: bare
characters, and characters with a backslash before them. Two backslashes end a row of a table, and a
bare ampersand ends a cell. A cell must not have a brace without its partner in it, nor a dollar,
nor any of the characters that are errors in running text or mean something in a formula.

Texts that fit in a cell can be put together from pieces that do (`FitsCell.append`). A name fits
after it is escaped, whatever characters it has.

## Main definitions

* `Token`, `tokens`: how a text is read
* `IsSound`: what may stand in a cell
* `IsWhole`: texts that can be read apart from what follows them
* `FitsRow`, `FitsCell`: texts that may stand in a row or a cell, with others around them

## Main results

* `FitsCell.append`, `FitsCell.braced`: texts that fit can be put together
* `fitsCell_escape`, `fitsCell_typeset`: names fit in cells
-/

namespace TopDown.Text.Tex

/-! ## Tokens -/

/-- A character that stands alone, or one with a backslash before it. -/
inductive Token where
  | bare (c : Char)
  | escaped (c : Char)
  deriving DecidableEq, Repr

/-- The tokens of a text, from left to right. A backslash at the end stands alone. -/
def tokens : List Char → List Token
  | [] => []
  | [c] => [.bare c]
  | c :: d :: cs => if c = '\\' then .escaped d :: tokens cs else .bare c :: tokens (d :: cs)

variable {s t : String} {cs ds : List Char} {ts us : List Token}

theorem tokens_cons_of_ne {c : Char} (hc : c ≠ '\\') (cs : List Char) :
    tokens (c :: cs) = .bare c :: tokens cs := by
  cases cs with
  | nil => rfl
  | cons d cs => rw [tokens, if_neg hc]

/-- A text that does not end within a token is read apart from what follows it. -/
theorem tokens_append (h : Token.bare '\\' ∉ tokens cs) (ds : List Char) :
    tokens (cs ++ ds) = tokens cs ++ tokens ds := by
  fun_induction tokens cs with
  | case1 => rfl
  | case2 c =>
    have hc : c ≠ '\\' := by
      rintro rfl
      exact h (List.mem_singleton_self _)
    exact tokens_cons_of_ne hc ds
  | case3 d cs ih =>
    rw [List.cons_append, List.cons_append, tokens, if_pos rfl,
      ih fun hmem => h (List.mem_cons_of_mem _ hmem), List.cons_append]
  | case4 c d cs hc ih =>
    rw [List.cons_append, tokens_cons_of_ne hc, ih fun hmem => h (List.mem_cons_of_mem _ hmem),
      List.cons_append]

/-! ## Cells -/

/-- How many braces are open after some tokens, if none is closed that was not opened. -/
def depthAfter : Nat → List Token → Option Nat
  | depth, [] => some depth
  | depth, token :: ts =>
    if token = .bare '{' then depthAfter (depth + 1) ts
    else if token = .bare '}' then
      match depth with
      | 0 => none
      | depth + 1 => depthAfter depth ts
    else depthAfter depth ts

/-- What may stand in a cell: braces are balanced, dollars come in pairs, and there is no character
that is not allowed in running text. -/
structure IsSound (ts : List Token) : Prop where
  braces : depthAfter 0 ts = some 0
  dollars : Even (ts.count (.bare '$'))
  allowed : ∀ c ∈ ['%', '#', '_', '^', '~'], Token.bare c ∉ ts

instance (ts : List Token) : Decidable (IsSound ts) :=
  decidable_of_iff (depthAfter 0 ts = some 0 ∧ Even (ts.count (.bare '$')) ∧
      ['%', '#', '_', '^', '~'].all fun c => Token.bare c ∉ ts)
    ⟨fun ⟨hbraces, hdollars, hallowed⟩ => ⟨hbraces, hdollars, by simpa using hallowed⟩,
      fun ⟨hbraces, hdollars, hallowed⟩ => ⟨hbraces, hdollars, by simpa using hallowed⟩⟩

/-- A text that does not end within a token, so that others may follow it. -/
def IsWhole (s : String) : Prop :=
  Token.bare '\\' ∉ tokens s.toList

instance (s : String) : Decidable (IsWhole s) :=
  inferInstanceAs (Decidable (Token.bare '\\' ∉ tokens s.toList))

/-- A text that does not end the row that it stands in. -/
structure FitsRow (s : String) : Prop where
  whole : IsWhole s
  inRow : Token.escaped '\\' ∉ tokens s.toList

instance (s : String) : Decidable (FitsRow s) :=
  decidable_of_iff (IsWhole s ∧ Token.escaped '\\' ∉ tokens s.toList)
    ⟨fun ⟨hwhole, hrow⟩ => ⟨hwhole, hrow⟩, fun ⟨hwhole, hrow⟩ => ⟨hwhole, hrow⟩⟩

/-- A text that may stand in a cell, and does not end the cell. -/
structure FitsCell (s : String) : Prop extends FitsRow s where
  inCell : Token.bare '&' ∉ tokens s.toList
  sound : IsSound (tokens s.toList)

instance (s : String) : Decidable (FitsCell s) :=
  decidable_of_iff (FitsRow s ∧ Token.bare '&' ∉ tokens s.toList ∧ IsSound (tokens s.toList))
    ⟨fun ⟨hrow, hcell, hsound⟩ => ⟨hrow, hcell, hsound⟩,
      fun ⟨hrow, hcell, hsound⟩ => ⟨hrow, hcell, hsound⟩⟩

/-- Braces are counted along the text. -/
theorem depthAfter_append (depth : Nat) (ts us : List Token) :
    depthAfter depth (ts ++ us) = (depthAfter depth ts).bind (depthAfter · us) := by
  induction ts generalizing depth with
  | nil => rfl
  | cons token ts ih =>
    simp only [List.cons_append, depthAfter]
    split_ifs
    · exact ih _
    · cases depth with
      | zero => rfl
      | succ depth => exact ih depth
    · exact ih depth

/-- Braces around the text stay open. -/
theorem depthAfter_add {depth depth' : Nat} (h : depthAfter depth ts = some depth') (k : Nat) :
    depthAfter (depth + k) ts = some (depth' + k) := by
  induction ts generalizing depth with
  | nil =>
    cases h
    rfl
  | cons token ts ih =>
    simp only [depthAfter] at h ⊢
    split_ifs at h ⊢
    · rw [Nat.add_right_comm]
      exact ih h
    · cases depth with
      | zero => cases h
      | succ depth =>
        rw [Nat.add_right_comm]
        exact ih h
    · exact ih h

namespace IsSound

theorem append (h : IsSound ts) (h' : IsSound us) : IsSound (ts ++ us) where
  braces := by rw [depthAfter_append, h.braces, Option.bind_some, h'.braces]
  dollars := by
    rw [List.count_append]
    exact h.dollars.add h'.dollars
  allowed := fun c hc hmem =>
    (List.mem_append.mp hmem).elim (h.allowed c hc) (h'.allowed c hc)

/-- A group in braces. -/
theorem group (h : IsSound ts) : IsSound (.bare '{' :: (ts ++ [.bare '}'])) where
  braces := by
    have hopen : depthAfter (0 + 1) ts = some (0 + 1) := depthAfter_add h.braces 1
    show depthAfter (0 + 1) (ts ++ [.bare '}']) = some 0
    rw [depthAfter_append, hopen]
    rfl
  dollars := by
    have hcount : (Token.bare '{' :: (ts ++ [.bare '}'])).count (.bare '$') =
        ts.count (.bare '$') := by
      simp [List.count_append]
    rw [hcount]
    exact h.dollars
  allowed := by
    intro c hc hmem
    rcases List.mem_cons.mp hmem with heq | hmem
    · cases heq
      revert hc
      decide
    · rcases List.mem_append.mp hmem with hmem | hmem
      · exact h.allowed c hc hmem
      · cases List.mem_singleton.mp hmem
        revert hc
        decide

end IsSound

namespace IsWhole

theorem tokens_append (h : IsWhole s) (t : String) :
    tokens (s ++ t).toList = tokens s.toList ++ tokens t.toList := by
  rw [String.toList_append, Tex.tokens_append h]

theorem append (h : IsWhole s) (h' : IsWhole t) : IsWhole (s ++ t) := by
  rw [IsWhole, h.tokens_append, List.mem_append, not_or]
  exact ⟨h, h'⟩

theorem intercalate {sep : String} (hsep : IsWhole sep) {parts : List String}
    (hparts : ∀ part ∈ parts, IsWhole part) : IsWhole (sep.intercalate parts) :=
  intercalate_induction (by decide) append hsep hparts

end IsWhole

namespace FitsRow

theorem append (h : FitsRow s) (h' : FitsRow t) : FitsRow (s ++ t) where
  whole := h.whole.append h'.whole
  inRow := by
    rw [h.whole.tokens_append, List.mem_append, not_or]
    exact ⟨h.inRow, h'.inRow⟩

theorem intercalate {sep : String} (hsep : FitsRow sep) {parts : List String}
    (hparts : ∀ part ∈ parts, FitsRow part) : FitsRow (sep.intercalate parts) :=
  intercalate_induction (by decide) append hsep hparts

end FitsRow

namespace FitsCell

/-- **Texts that fit in a cell can follow each other.** -/
theorem append (h : FitsCell s) (h' : FitsCell t) : FitsCell (s ++ t) where
  toFitsRow := h.toFitsRow.append h'.toFitsRow
  inCell := by
    rw [h.whole.tokens_append, List.mem_append, not_or]
    exact ⟨h.inCell, h'.inCell⟩
  sound := by
    rw [h.whole.tokens_append]
    exact h.sound.append h'.sound

theorem empty : FitsCell "" := by decide

theorem intercalate {sep : String} (hsep : FitsCell sep) {parts : List String}
    (hparts : ∀ part ∈ parts, FitsCell part) : FitsCell (sep.intercalate parts) :=
  intercalate_induction empty append hsep hparts

theorem tokens_braced (h : FitsCell s) :
    tokens (braced s).toList = .bare '{' :: (tokens s.toList ++ [.bare '}']) := by
  have hbraced : (Tex.braced s).toList = '{' :: (s.toList ++ ['}']) := by
    simp [Tex.braced, String.toList_append]
  -- The closing brace is bare because the text before it is whole.
  rw [hbraced, tokens_cons_of_ne (by decide), Tex.tokens_append h.whole]
  rfl

/-- A group in braces fits. -/
theorem braced (h : FitsCell s) : FitsCell (braced s) where
  whole := by
    rw [IsWhole, h.tokens_braced]
    simpa [IsWhole] using h.whole
  inCell := by
    rw [h.tokens_braced]
    simpa using h.inCell
  inRow := by
    rw [h.tokens_braced]
    simpa using h.inRow
  sound := by
    rw [h.tokens_braced]
    exact h.sound.group

/-- A command fits if its argument does. -/
theorem command {name argument : String} (hname : FitsCell ("\\" ++ name))
    (h : FitsCell argument) : FitsCell (command name argument) :=
  hname.append h.braced

end FitsCell

/-! ## Names -/

/-- The characters that mean something to LaTeX, as far as tables are concerned. -/
def special : List Char :=
  ['\\', '&', '{', '}', '$', '%', '#', '_', '^', '~']

/-- The other characters. -/
def IsOrdinary (c : Char) : Prop :=
  c ∉ special

theorem isSound_bare {c : Char} (h : IsOrdinary c) : IsSound [.bare c] := by
  simp only [IsOrdinary, special, List.mem_cons, List.not_mem_nil, or_false, not_or] at h
  obtain ⟨-, -, hopen, hclose, hdollar, hpercent, hhash, hunderscore, hcaret, htilde⟩ := h
  constructor
  · simp [depthAfter, hopen, hclose]
  · simp [hdollar]
  · simp [hpercent, hhash, hunderscore, hcaret, htilde, eq_comm]

/-- A text of ordinary characters is read character by character. -/
theorem tokens_eq_map (h : ∀ c ∈ cs, IsOrdinary c) : tokens cs = cs.map .bare := by
  induction cs with
  | nil => rfl
  | cons c cs ih =>
    obtain ⟨hc, hcs⟩ := List.forall_mem_cons.mp h
    have hne : c ≠ '\\' := by
      rintro rfl
      exact hc (by decide)
    rw [tokens_cons_of_ne hne, ih hcs, List.map_cons]

/-- Ordinary characters fit in a cell. -/
theorem fitsCell_of_isOrdinary (h : ∀ c ∈ s.toList, IsOrdinary c) : FitsCell s := by
  have hbare : ∀ c, Token.bare c ∈ tokens s.toList → IsOrdinary c := by
    intro c hc
    rw [tokens_eq_map h] at hc
    obtain ⟨d, hd, heq⟩ := List.mem_map.mp hc
    cases heq
    exact h c hd
  have hescaped : Token.escaped '\\' ∉ tokens s.toList := by
    simp [tokens_eq_map h]
  have hsound : ∀ cs : List Char, (∀ c ∈ cs, IsOrdinary c) → IsSound (cs.map .bare) := by
    intro cs hcs
    induction cs with
    | nil => decide
    | cons c cs ih =>
      obtain ⟨hc, hcs⟩ := List.forall_mem_cons.mp hcs
      exact (isSound_bare hc).append (ih hcs)
  refine ⟨⟨fun hc => hbare _ hc (by decide), hescaped⟩, fun hc => hbare _ hc (by decide), ?_⟩
  rw [tokens_eq_map h]
  exact hsound s.toList h

theorem fitsCell_repr (n : Nat) : FitsCell n.repr := by
  refine fitsCell_of_isOrdinary fun c hc => ?_
  rw [Nat.toList_repr] at hc
  have hdigit := Nat.isDigit_of_mem_toDigits (by decide) (by decide) hc
  have hall : (special.all fun c => !c.isDigit) = true := by decide
  intro hmem
  have hfalse := List.all_eq_true.mp hall c hmem
  rw [hdigit] at hfalse
  cases hfalse

/-- What prints the characters that do not print themselves, and the hyphen. -/
def printing : List String :=
  ["\\&", "\\%", "\\$", "\\#", "\\_", "\\\x7b", "\\\x7d", "\x7b[\x7d", "\x7b]\x7d",
    "\\textasciitilde\x7b\x7d", "\\textasciicircum\x7b\x7d", "\\textless\x7b\x7d",
    "\\textgreater\x7b\x7d", "!\x7b\x7d", "\\textbackslash\x7b\x7d", "-\x7b\x7d", "-"]

/-- An ordinary character prints itself, unless it has a text of its own. -/
theorem escapeChar_cases (next : Option Char) (c : Char) :
    escapeChar next c ∈ printing ∨ IsOrdinary c ∧ escapeChar next c = c.toString := by
  rw [escapeChar.eq_def]
  split
  case h_16 => split <;> exact Or.inl (by decide)
  case h_17 =>
    refine Or.inr ⟨?_, rfl⟩
    simp only [IsOrdinary, special, List.mem_cons, List.not_mem_nil, or_false, not_or]
    and_intros <;> assumption
  all_goals exact Or.inl (by decide)

theorem fitsCell_ofList_singleton {c : Char} (hc : IsOrdinary c) :
    FitsCell (String.ofList [c]) :=
  fitsCell_of_isOrdinary (by simpa using hc)

/-- What prints a text fits in a cell, also with another text that fits in the place of the sign of
the empty string. -/
theorem fitsCell_flatMap_escapeChars {f : Char → List Char} (hf : ∀ c, c ≠ 'ε' → f c = [c])
    (hepsilon : FitsCell (String.ofList (f 'ε'))) (cs : List Char) :
    FitsCell (String.ofList ((escapeChars cs).flatMap f)) := by
  have hprinting : ∀ s ∈ printing, FitsCell s ∧ 'ε' ∉ s.toList := by decide
  induction cs with
  | nil => exact .empty
  | cons c cs ih =>
    rw [escapeChars, List.flatMap_append, String.ofList_append]
    refine .append ?_ ih
    rcases escapeChar_cases cs.head? c with hmem | ⟨hc, heq⟩
    · obtain ⟨hfits, hnone⟩ := hprinting _ hmem
      have hsame : ∀ d ∈ (escapeChar cs.head? c).toList, f d = [d] := fun d hd =>
        hf d fun heq => hnone (heq ▸ hd)
      rw [List.flatMap_congr hsame, List.flatMap_singleton', String.ofList_toList]
      exact hfits
    · have hchar : c.toString.toList = [c] := by simp
      rw [heq, hchar, List.flatMap_singleton]
      by_cases hc' : c = 'ε'
      · rw [hc']
        exact hepsilon
      · rw [hf c hc']
        exact fitsCell_ofList_singleton hc

/-- **Every text fits in a cell when it is escaped.** -/
theorem fitsCell_escape (s : String) : FitsCell (escape s) := by
  have hall := fitsCell_flatMap_escapeChars (f := fun c => [c]) (fun _ _ => rfl)
    (fitsCell_ofList_singleton (by simp [IsOrdinary, special])) s.toList
  rwa [List.flatMap_singleton'] at hall

/-- **Every text fits in a cell when it is set for running prose.** -/
theorem fitsCell_typeset (s : String) : FitsCell (typeset s) := by
  refine fitsCell_flatMap_escapeChars (fun c hc => if_neg hc) ?_ s.toList
  show FitsCell (String.ofList epsilonFormula.toList)
  decide

end TopDown.Text.Tex
