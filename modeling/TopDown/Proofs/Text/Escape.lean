import TopDown.Proofs.Text.Tex

/-!
# Reading escaped texts

What prints a text can be read back. The text that prints one character says which character it is,
whatever comes after it; the hyphen is no exception, since the empty group after it can be told from
the groups that print brackets. So no two texts are printed alike (`escape_injective`), and an
escaped text cannot be taken for something else that stands where a name can stand: it begins with
no dollar, no empty group and no command but its own (`not_prefix_escapeChars`).

Nor can one miss where a text in braces ends. The braces of a text that fits in a cell are balanced,
so that the first brace that closes more than was opened is the one after it
(`braced_append_inj`).

## Main definitions

* `spelledOut`: the characters that are printed by a command or with a group
* `readChar?`: the first character of an escaped text

## Main results

* `readChar?_escapeChars`: characters are read back
* `escape_injective`: escaped texts are told apart
* `braced_append_inj`: where a braced text ends
-/

namespace TopDown.Text.Tex

variable {cs ds rest rest' : List Char} {ts us : List Token} {s s' : String}

/-! ## Characters -/

/-- The characters that are printed by a command or with a group, wherever they stand. -/
def spelledOut : List Char :=
  ['&', '%', '$', '#', '_', '{', '}', '[', ']', '~', '^', '<', '>', '!', '\\']

/-- What prints a character that is not followed by a hyphen. -/
def codeOf (c : Char) : List Char :=
  (escapeChar none c).toList

/-- The first character of an escaped text, and what is left of the text. -/
def readChar? (cs : List Char) : Option (Char × List Char) :=
  match spelledOut.find? fun c => (codeOf c).isPrefixOf cs with
  | some c => some (c, cs.drop (codeOf c).length)
  | none =>
    match cs with
    | [] => none
    | '-' :: '{' :: '}' :: rest => some ('-', rest)
    | c :: rest => some (c, rest)

/-- A character is spelled out, or it is the hyphen, or it prints itself. -/
theorem escapeChar_forms (next : Option Char) (c : Char) :
    (c ∈ spelledOut ∧ (escapeChar next c).toList = codeOf c) ∨ c = '-' ∨
      c ∉ spelledOut ∧ c ≠ '-' ∧ (escapeChar next c).toList = [c] := by
  rw [codeOf, escapeChar.eq_def, escapeChar.eq_def]
  split
  case h_16 => exact Or.inr (Or.inl rfl)
  case h_17 =>
    refine Or.inr (Or.inr ⟨?_, by assumption, by simp⟩)
    simp only [spelledOut, List.mem_cons, List.not_mem_nil, or_false, not_or]
    and_intros <;> assumption
  all_goals exact Or.inl ⟨by decide, rfl⟩

/-- What prints a character that is spelled out begins with such a character. -/
theorem exists_codeOf_eq_cons :
    ∀ c ∈ spelledOut, ∃ first more, codeOf c = first :: more ∧ first ∈ spelledOut := by
  have hheads : (spelledOut.all fun c => (codeOf c).head?.any spelledOut.contains) = true := by
    decide
  intro c hc
  obtain ⟨first, hfirst, hmem⟩ := (Option.any_eq_true _ _).mp (List.all_eq_true.mp hheads c hc)
  obtain ⟨more, hmore⟩ := List.head?_eq_some_iff.mp hfirst
  exact ⟨first, more, hmore, List.contains_iff_mem.mp hmem⟩

/-- A mark that begins like a command or a group does not stand at the beginning of an escaped
text, if it does not print a character there. -/
theorem not_prefix_escapeChars {mark : List Char}
    (hhead : mark.head?.any spelledOut.contains = true)
    (hcodes : spelledOut.any (fun c => mark.isPrefixOf (codeOf c) || (codeOf c).isPrefixOf mark) =
      false) (cs : List Char) :
    ¬ mark <+: escapeChars cs := by
  obtain ⟨first, hhead, hfirst⟩ := (Option.any_eq_true _ _).mp hhead
  obtain ⟨more, rfl⟩ := List.head?_eq_some_iff.mp hhead
  rw [List.contains_iff_mem] at hfirst
  have hother : ∀ c ∉ spelledOut, ∀ rest, ¬ first :: more <+: c :: rest := by
    intro c hc rest hprefix
    exact hc ((List.cons_prefix_cons.mp hprefix).1 ▸ hfirst)
  cases cs with
  | nil => exact fun hprefix => List.cons_ne_nil _ _ (List.prefix_nil.mp hprefix)
  | cons c cs =>
    rw [escapeChars]
    rcases escapeChar_forms cs.head? c with ⟨hc, heq⟩ | rfl | ⟨hc, -, heq⟩
    · rw [heq]
      intro hprefix
      have hnot := List.any_eq_false.mp hcodes c hc
      rw [Bool.or_eq_true, List.isPrefixOf_iff_prefix, List.isPrefixOf_iff_prefix] at hnot
      exact hnot (List.prefix_or_prefix_of_prefix hprefix (List.prefix_append _ _))
    · rw [escapeChar]
      split <;> exact hother '-' (by decide) _
    · rw [heq]
      exact hother c hc _

/-- There is no empty group at the beginning of an escaped text: brackets stand in groups. -/
theorem not_prefix_emptyGroup (cs : List Char) : ¬ ['{', '}'] <+: escapeChars cs :=
  not_prefix_escapeChars (by decide) (by decide) cs

/-- A character that is spelled out is read back. -/
theorem readChar?_codeOf :
    ∀ c ∈ spelledOut, ∀ rest, readChar? (codeOf c ++ rest) = some (c, rest) := by
  simp only [spelledOut, List.forall_mem_cons, List.not_mem_nil, IsEmpty.forall_iff, implies_true,
    and_true]
  and_intros <;> exact fun _ => rfl

/-- Nothing that begins with another character is spelled out. -/
theorem find?_codeOf_eq_none {c : Char} (hc : c ∉ spelledOut) (rest : List Char) :
    spelledOut.find? (fun d => (codeOf d).isPrefixOf (c :: rest)) = none := by
  refine List.find?_eq_none.mpr fun d hd hspelled => ?_
  obtain ⟨first, more, heq, hfirst⟩ := exists_codeOf_eq_cons d hd
  rw [heq, List.isPrefixOf_cons_cons, Bool.and_eq_true, beq_iff_eq] at hspelled
  exact hc (hspelled.1 ▸ hfirst)

/-- **Characters are read back**, whatever comes after them. -/
theorem readChar?_escapeChars (c : Char) (cs : List Char) :
    readChar? (escapeChars (c :: cs)) = some (c, escapeChars cs) := by
  rw [escapeChars]
  rcases escapeChar_forms cs.head? c with ⟨hc, heq⟩ | rfl | ⟨hc, hhyphen, heq⟩
  · rw [heq, readChar?_codeOf c hc]
  · have hnone := find?_codeOf_eq_none (c := '-') (by decide)
    rw [escapeChar]
    split
    · show readChar? ('-' :: '{' :: '}' :: escapeChars cs) = _
      rw [readChar?, hnone]
    · show readChar? ('-' :: escapeChars cs) = _
      rw [readChar?, hnone]
      -- A hyphen without a group is not followed by one that could be taken for its own.
      rintro rest - hgroup
      exact not_prefix_emptyGroup cs ⟨rest, hgroup.symm⟩
  · show readChar? ((escapeChar cs.head? c).toList ++ escapeChars cs) = _
    rw [heq, List.singleton_append, readChar?, find?_codeOf_eq_none hc]
    exact fun _ heq => absurd heq hhyphen

theorem escapeChars_injective : Function.Injective escapeChars := by
  intro cs ds h
  induction cs generalizing ds with
  | nil =>
    cases ds with
    | nil => rfl
    | cons d ds =>
      have hread := readChar?_escapeChars d ds
      rw [← h] at hread
      cases hread
  | cons c cs ih =>
    have hread := readChar?_escapeChars c cs
    rw [h] at hread
    cases ds with
    | nil => cases hread
    | cons d ds =>
      rw [readChar?_escapeChars, Option.some.injEq, Prod.mk.injEq] at hread
      rw [hread.1, ih hread.2.symm]

/-- **Escaped texts are told apart.** -/
theorem escape_injective : Function.Injective escape := fun _ _ h =>
  String.toList_inj.mp (escapeChars_injective (String.ofList_injective h))

/-! ## Groups -/

/-- The characters of a token. -/
def Token.chars : Token → List Char
  | bare c => [c]
  | escaped c => ['\\', c]

/-- Nothing is lost when a text is read. -/
theorem flatMap_chars_tokens (cs : List Char) : (tokens cs).flatMap Token.chars = cs := by
  fun_induction tokens cs with
  | case1 => rfl
  | case2 c => rfl
  | case3 d cs ih => rw [List.flatMap_cons, ih]; rfl
  | case4 c d cs hc ih => rw [List.flatMap_cons, ih]; rfl

theorem tokens_injective : Function.Injective tokens :=
  Function.LeftInverse.injective flatMap_chars_tokens

/-- The first brace that closes more than was opened tells where balanced tokens end. -/
theorem append_close_inj {ts' us' : List Token} (hts : depthAfter 0 ts = some 0)
    (hts' : depthAfter 0 ts' = some 0)
    (h : ts ++ .bare '}' :: us = ts' ++ .bare '}' :: us') : ts = ts' ∧ us = us' := by
  have hnone : ∀ {ts ts' : List Token} {more : List Token}, depthAfter 0 ts = some 0 →
      depthAfter 0 ts' = some 0 → ts' ≠ ts ++ .bare '}' :: more := by
    rintro ts _ more hts hts' rfl
    rw [depthAfter_append, hts] at hts'
    cases hts'
  rcases List.append_eq_append_iff.mp h with ⟨more, rfl, hmore⟩ | ⟨more, rfl, hmore⟩
  · cases more with
    | nil => exact ⟨(List.append_nil ts).symm, (List.cons.inj hmore).2⟩
    | cons token more =>
      obtain ⟨rfl, -⟩ := List.cons.inj hmore
      exact absurd rfl (hnone hts hts')
  · cases more with
    | nil => exact ⟨List.append_nil ts', (List.cons.inj hmore).2.symm⟩
    | cons token more =>
      obtain ⟨rfl, -⟩ := List.cons.inj hmore
      exact absurd rfl (hnone hts' hts)

/-- **A braced text that fits in a cell ends at its own brace**, so that it is told apart from
others whatever comes after it. -/
theorem braced_append_inj (hs : FitsCell s) (hs' : FitsCell s')
    (h : (braced s).toList ++ rest = (braced s').toList ++ rest') : s = s' ∧ rest = rest' := by
  have htokens : ∀ {s : String} {rest : List Char}, FitsCell s →
      tokens ((braced s).toList ++ rest) =
        .bare '{' :: (tokens s.toList ++ .bare '}' :: tokens rest) := by
    intro s rest hs
    rw [tokens_append hs.braced.whole, hs.tokens_braced]
    simp
  have heq := congrArg tokens h
  rw [htokens hs, htokens hs'] at heq
  obtain ⟨htext, hrest⟩ :=
    append_close_inj hs.sound.braces hs'.sound.braces (List.cons.inj heq).2
  exact ⟨String.toList_inj.mp (tokens_injective htext), tokens_injective hrest⟩

end TopDown.Text.Tex
