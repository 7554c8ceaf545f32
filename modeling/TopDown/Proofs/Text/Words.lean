import Mathlib.Data.List.Basic
import Mathlib.Data.List.TakeWhile
import TopDown.Text.Blank

/-!
# Words

A word is a text that is not empty and holds no blank. The words of a text are words indeed, and
each of them stands in the text as it is; and words that are written with a blank between any two of
them are read back as they were. Trimming leaves a word as it is, and takes the blanks around it
away.

## Main definitions

* `IsWord`: texts without blanks that are not empty

## Main results

* `isInfix_of_mem_splitOnP`: the pieces that a text falls into
* `intercalate_induction`: what holds of a text that is made of pieces
* `isWord_of_mem_words`, `isInfix_of_mem_words`: what words there are in a text
* `words_intercalate`: words are read back
* `exists_of_words_eq_cons`: where the first word of a text stands
* `trimChars_append`, `exists_append_trimChars`: blanks around a text are trimmed away, and nothing
  else
-/

namespace TopDown.Text

/-- A text that is not empty and holds no blank. -/
structure IsWord (w : String) : Prop where
  ne_nil : w.toList ≠ []
  isBlank_eq_false : ∀ c ∈ w.toList, isBlank c = false

theorem isWord_iff {w : String} : IsWord w ↔ w.isEmpty = false ∧ hasBlank w = false := by
  have hempty : w.isEmpty = false ↔ w.toList ≠ [] := by
    rw [← Bool.not_eq_true, String.isEmpty_iff, Ne, String.toList_eq_nil_iff]
  have hblank : hasBlank w = false ↔ ∀ c ∈ w.toList, isBlank c = false := by
    simp [hasBlank]
  rw [hempty, hblank]
  exact ⟨fun h => ⟨h.ne_nil, h.isBlank_eq_false⟩, fun h => ⟨h.1, h.2⟩⟩

theorem isBlank_space : isBlank ' ' = true := by
  decide

theorem isBlank_of_mem_replicate {n : Nat} : ∀ c ∈ List.replicate n ' ', isBlank c = true := by
  intro c hc
  rw [List.eq_of_mem_replicate hc]
  exact isBlank_space

/-! ## Pieces -/

/-- A piece of a text that falls apart holds no separator, and stands in the text as it is. -/
theorem isInfix_of_mem_splitOnP {α : Type} {p : α → Bool} {l piece : List α}
    (h : piece ∈ l.splitOnP p) : (∀ a ∈ piece, p a = false) ∧ piece <:+: l := by
  suffices hall : (∀ piece ∈ l.splitOnP p, (∀ a ∈ piece, p a = false) ∧ piece <:+: l) ∧
      ∀ first ∈ (l.splitOnP p).head?, first <+: l from hall.1 piece h
  clear h
  induction l with
  | nil => simp [List.splitOnP_nil]
  | cons a l ih =>
    obtain ⟨hpieces, hfirst⟩ := ih
    rw [List.splitOnP_cons_eq_if_modifyHead]
    split
    · refine ⟨?_, by simp⟩
      intro piece hpiece
      rcases List.mem_cons.mp hpiece with rfl | hpiece
      · simp
      · obtain ⟨hsolid, hpart⟩ := hpieces piece hpiece
        exact ⟨hsolid, hpart.trans (List.infix_cons List.infix_rfl)⟩
    · next ha =>
      obtain ⟨first, rest, hsplit⟩ := List.exists_cons_of_ne_nil (List.splitOnP_ne_nil p l)
      rw [hsplit] at hpieces hfirst ⊢
      rw [List.modifyHead_cons]
      have hprefix : a :: first <+: a :: l :=
        List.cons_prefix_cons.mpr ⟨rfl, hfirst first rfl⟩
      constructor
      · intro piece hpiece
        rcases List.mem_cons.mp hpiece with rfl | hpiece
        · refine ⟨?_, hprefix.isInfix⟩
          intro b hb
          rcases List.mem_cons.mp hb with rfl | hb
          · simpa using ha
          · exact (hpieces first List.mem_cons_self).1 b hb
        · obtain ⟨hsolid, hpart⟩ := hpieces piece (List.mem_cons_of_mem _ hpiece)
          exact ⟨hsolid, hpart.trans (List.infix_cons List.infix_rfl)⟩
      · rintro _ ⟨rfl⟩
        exact hprefix

section Equal

variable {α : Type} [DecidableEq α] {a : α} {l : List α}

theorem beq_eq_false_of_notMem (h : a ∉ l) : ∀ b ∈ l, (b == a) = false := by
  intro b hb
  rw [beq_eq_false_iff_ne]
  rintro rfl
  exact h hb

/-- A text without a separator does not fall apart. -/
theorem splitOnP_eq_singleton_of_notMem (h : a ∉ l) : l.splitOnP (· == a) = [l] :=
  List.splitOnP_eq_singleton (beq_eq_false_of_notMem h)

end Equal

/-- There is one piece more than there are separators. -/
theorem length_splitOnP {α : Type} (p : α → Bool) (l : List α) :
    (l.splitOnP p).length = l.countP p + 1 := by
  induction l with
  | nil => simp [List.splitOnP_nil]
  | cons a l ih =>
    rw [List.splitOnP_cons_eq_if_modifyHead, List.countP_cons]
    split <;> simp [ih]

/-- What holds no separator joins the last piece of the text before it. -/
theorem splitOnP_append_of_forall {α : Type} {p : α → Bool} {after : List α}
    (h : ∀ a ∈ after, p a = false) (l : List α) : ∃ init last, l.splitOnP p = init ++ [last] ∧
      (l ++ after).splitOnP p = init ++ [last ++ after] := by
  induction l with
  | nil => exact ⟨[], [], List.splitOnP_nil, List.splitOnP_eq_singleton h⟩
  | cons a l ih =>
    obtain ⟨init, last, hl, happend⟩ := ih
    cases ha : p a with
    | true =>
      refine ⟨[] :: init, last, ?_, ?_⟩
      · simp [List.splitOnP_cons_eq_if_modifyHead, ha, hl]
      · simp [List.splitOnP_cons_eq_if_modifyHead, ha, happend]
    | false =>
      cases init with
      | nil =>
        refine ⟨[], a :: last, ?_, ?_⟩
        · simp [List.splitOnP_cons_eq_if_modifyHead, ha, hl]
        · simp [List.splitOnP_cons_eq_if_modifyHead, ha, happend]
      | cons first init =>
        refine ⟨(a :: first) :: init, last, ?_, ?_⟩
        · simp [List.splitOnP_cons_eq_if_modifyHead, ha, hl]
        · simp [List.splitOnP_cons_eq_if_modifyHead, ha, happend]

/-- A property that is kept when texts are put together holds of a text that is made of pieces. -/
theorem intercalate_induction {P : String → Prop} (hempty : P "")
    (happend : ∀ {s t}, P s → P t → P (s ++ t)) {sep : String} (hsep : P sep)
    {parts : List String} (hparts : ∀ part ∈ parts, P part) : P (sep.intercalate parts) := by
  induction parts with
  | nil => exact hempty
  | cons part parts ih =>
    obtain ⟨hpart, hparts⟩ := List.forall_mem_cons.mp hparts
    cases parts with
    | nil =>
      rw [String.intercalate_singleton]
      exact hpart
    | cons next parts =>
      rw [String.intercalate_cons_cons]
      exact happend (happend hpart hsep) (ih hparts)

/-! ## The words of a text -/

variable {w : String} {cs : List Char}

theorem mem_words_iff : w ∈ words cs ↔ w.toList ∈ cs.splitOnP isBlank ∧ w.toList ≠ [] := by
  simp only [words, List.mem_map, List.mem_filter]
  constructor
  · rintro ⟨piece, ⟨hpiece, hne⟩, rfl⟩
    rw [String.toList_ofList]
    exact ⟨hpiece, by simpa using hne⟩
  · rintro ⟨hpiece, hne⟩
    exact ⟨w.toList, ⟨hpiece, by simpa using hne⟩, String.ofList_toList⟩

theorem isWord_of_mem_words (h : w ∈ words cs) : IsWord w where
  ne_nil := (mem_words_iff.mp h).2
  isBlank_eq_false := (isInfix_of_mem_splitOnP (mem_words_iff.mp h).1).1

/-- A word of a text stands in it as it is. -/
theorem isInfix_of_mem_words (h : w ∈ words cs) : w.toList <:+: cs :=
  (isInfix_of_mem_splitOnP (mem_words_iff.mp h).1).2

theorem words_append_blank {c : Char} (hc : isBlank c = true) (cs cs' : List Char) :
    words (cs ++ c :: cs') = words cs ++ words cs' := by
  rw [words, List.splitOnP_append_cons cs cs' hc, List.filter_append, List.map_append, words, words]

theorem words_nil : words [] = [] := by
  simp [words, List.splitOnP_nil]

/-- A blank at the beginning belongs to no word. -/
theorem words_cons_blank {c : Char} (hc : isBlank c = true) (cs : List Char) :
    words (c :: cs) = words cs := by
  have hsplit := words_append_blank hc [] cs
  rwa [words_nil, List.nil_append, List.nil_append] at hsplit

theorem IsWord.words_toList (h : IsWord w) : words w.toList = [w] := by
  rw [words, List.splitOnP_eq_singleton h.isBlank_eq_false]
  simp [h.ne_nil]

/-- **Words that are written with a space between them are read back.** -/
theorem words_intercalate {ws : List String} (h : ∀ w ∈ ws, IsWord w) :
    words (" ".intercalate ws).toList = ws := by
  rw [String.toList_intercalate]
  induction ws with
  | nil => exact words_nil
  | cons w ws ih =>
    obtain ⟨hw, hws⟩ := List.forall_mem_cons.mp h
    cases ws with
    | nil =>
      rw [List.map_singleton, List.intercalate_singleton]
      exact hw.words_toList
    | cons w' ws =>
      rw [List.map_cons, List.map_cons, List.intercalate_cons_cons, List.append_assoc]
      change words (w.toList ++ ' ' :: _) = _
      rw [words_append_blank isBlank_space, hw.words_toList]
      exact congrArg (w :: ·) (ih hws)

/-- Blanks hold no word. -/
theorem words_of_isBlank (h : ∀ c ∈ cs, isBlank c = true) : words cs = [] := by
  induction cs with
  | nil => exact words_nil
  | cons c cs ih =>
    obtain ⟨hc, hcs⟩ := List.forall_mem_cons.mp h
    rw [words_cons_blank hc, ih hcs]

/-- Blanks before a text belong to no word. -/
theorem words_blank_append {before : List Char} (h : ∀ c ∈ before, isBlank c = true)
    (cs : List Char) : words (before ++ cs) = words cs := by
  induction before with
  | nil => rfl
  | cons c before ih =>
    obtain ⟨hc, hbefore⟩ := List.forall_mem_cons.mp h
    rw [List.cons_append, words_cons_blank hc, ih hbefore]

/-- Blanks after a text belong to no word. -/
theorem words_append_of_isBlank {after : List Char} (h : ∀ c ∈ after, isBlank c = true)
    (cs : List Char) : words (cs ++ after) = words cs := by
  cases after with
  | nil => rw [List.append_nil]
  | cons c after =>
    obtain ⟨hc, hafter⟩ := List.forall_mem_cons.mp h
    rw [words_append_blank hc, words_of_isBlank hafter, List.append_nil]

theorem words_eq_nil_iff : words cs = [] ↔ ∀ c ∈ cs, isBlank c = true := by
  refine ⟨fun h => ?_, words_of_isBlank⟩
  induction cs with
  | nil => simp
  | cons c cs ih =>
    cases hc : isBlank c with
    | true =>
      rw [words_cons_blank hc] at h
      exact List.forall_mem_cons.mpr ⟨hc, ih h⟩
    | false =>
      obtain ⟨first, rest, hsplit⟩ := List.exists_cons_of_ne_nil (List.splitOnP_ne_nil isBlank cs)
      simp [words, List.splitOnP_cons_eq_if_modifyHead, hc, hsplit] at h

/-- A text begins with blanks, of which there may be none, and goes on with a character that is not
blank. The same holds of every other class of characters. -/
theorem exists_append_of_class {α : Type} (p : α → Bool) (l : List α) :
    ∃ before body, l = before ++ body ∧ (∀ a ∈ before, p a = true) ∧
      ∀ a ∈ body.head?, p a = false := by
  induction l with
  | nil => exact ⟨[], [], rfl, by simp, by simp⟩
  | cons a l ih =>
    cases ha : p a with
    | false => exact ⟨[], a :: l, rfl, by simp, by simpa using ha⟩
    | true =>
      obtain ⟨before, body, rfl, hbefore, hbody⟩ := ih
      exact ⟨a :: before, body, rfl, List.forall_mem_cons.mpr ⟨ha, hbefore⟩, hbody⟩

/-- **The first word of a text** stands after blanks, and a blank comes next unless the text is at
its end. -/
theorem exists_of_words_eq_cons {ws : List String} (h : words cs = w :: ws) :
    ∃ before rest, cs = before ++ (w.toList ++ rest) ∧ (∀ c ∈ before, isBlank c = true) ∧
      (∀ c ∈ rest.head?, isBlank c = true) ∧ words rest = ws := by
  obtain ⟨before, body, rfl, hbefore, hbody⟩ := exists_append_of_class isBlank cs
  obtain ⟨solid, rest, rfl, hsolid, hrest⟩ := exists_append_of_class (fun c => !isBlank c) body
  have hsolid : ∀ c ∈ solid, isBlank c = false := by simpa using hsolid
  have hrest : ∀ c ∈ rest.head?, isBlank c = true := by simpa using hrest
  have hne : solid ≠ [] := by
    rintro rfl
    cases rest with
    | nil => simp [words_of_isBlank hbefore] at h
    | cons c rest =>
      have hc := hbody c rfl
      rw [hrest c rfl] at hc
      cases hc
  have hword : IsWord (String.ofList solid) := ⟨by simpa using hne, by simpa using hsolid⟩
  have hfirst : words solid = [String.ofList solid] := by
    have hwords := hword.words_toList
    rwa [String.toList_ofList] at hwords
  have hall : words (solid ++ rest) = String.ofList solid :: words rest := by
    cases rest with
    | nil => rw [List.append_nil, hfirst, words_nil]
    | cons c rest =>
      rw [words_append_blank (hrest c rfl), hfirst, words_cons_blank (hrest c rfl)]
      rfl
  rw [words_blank_append hbefore, hall] at h
  obtain ⟨rfl, rfl⟩ := List.cons.inj h
  exact ⟨before, rest, by rw [String.toList_ofList], hbefore, hrest, rfl⟩

/-! ## Trimming -/

theorem trimChars_isInfix (cs : List Char) : trimChars cs <:+: cs := by
  have hstart : cs.dropWhile isBlank <:+ cs := List.dropWhile_suffix _
  have hend : ((cs.dropWhile isBlank).reverse.dropWhile isBlank).reverse <+:
      cs.dropWhile isBlank := by
    rw [← List.reverse_suffix, List.reverse_reverse]
    exact List.dropWhile_suffix _
  exact hend.isInfix.trans hstart.isInfix

theorem dropWhile_blank {c : Char} (hc : isBlank c = false) (cs : List Char) :
    (c :: cs).dropWhile isBlank = c :: cs := by
  rw [List.dropWhile_cons, hc, if_neg Bool.false_ne_true]

/-- A text ends with blanks, of which there may be none, and with a character before them that is
not blank. -/
theorem exists_append_blank (cs : List Char) : ∃ body after, cs = body ++ after ∧
    (∀ c ∈ after, isBlank c = true) ∧ ∀ c ∈ body.getLast?, isBlank c = false := by
  obtain ⟨after, body, hcs, hafter, hbody⟩ := exists_append_of_class isBlank cs.reverse
  refine ⟨body.reverse, after.reverse, ?_, fun c hc => hafter c (List.mem_reverse.mp hc), ?_⟩
  · rw [← List.reverse_append, ← hcs, List.reverse_reverse]
  · rwa [List.getLast?_reverse]

/-- **Blanks around a text are trimmed away**, as far as they go. -/
theorem trimChars_append {before after : List Char} {first last : Char}
    (hbefore : ∀ c ∈ before, isBlank c = true) (hafter : ∀ c ∈ after, isBlank c = true)
    (hfirst : cs.head? = some first) (hlast : cs.getLast? = some last)
    (hsolid : isBlank first = false ∧ isBlank last = false) :
    trimChars (before ++ (cs ++ after)) = cs := by
  obtain ⟨rest, rfl⟩ : ∃ rest, cs = first :: rest := List.head?_eq_some_iff.mp hfirst
  obtain ⟨start, hstart⟩ : ∃ start, first :: rest = start ++ [last] :=
    List.getLast?_eq_some_iff.mp hlast
  have hend : ((first :: rest) ++ after).reverse = after.reverse ++ last :: start.reverse := by
    rw [hstart]
    simp
  have hafter' : ∀ c ∈ after.reverse, isBlank c = true := fun c hc =>
    hafter c (List.mem_reverse.mp hc)
  rw [trimChars, List.dropWhile_append_of_pos hbefore, List.cons_append,
    dropWhile_blank hsolid.1, ← List.cons_append, hend, List.dropWhile_append_of_pos hafter',
    dropWhile_blank hsolid.2, hstart]
  simp

/-- Trimming takes blanks away at the two ends. -/
theorem exists_append_trimChars (cs : List Char) : ∃ before after,
    cs = before ++ (trimChars cs ++ after) ∧ (∀ c ∈ before, isBlank c = true) ∧
      ∀ c ∈ after, isBlank c = true := by
  obtain ⟨before, rest, rfl, hbefore, hrest⟩ := exists_append_of_class isBlank cs
  obtain ⟨body, after, rfl, hafter, hbody⟩ := exists_append_blank rest
  refine ⟨before, after, ?_, hbefore, hafter⟩
  cases body with
  | nil =>
    have hall : ∀ c ∈ before ++ ([] ++ after), isBlank c = true :=
      List.forall_mem_append.mpr ⟨hbefore, hafter⟩
    have hnil : trimChars (before ++ ([] ++ after)) = [] := by
      rw [trimChars, List.dropWhile_eq_nil_iff.mpr hall]
      rfl
    rw [hnil]
  | cons c body =>
    rw [trimChars_append hbefore hafter rfl
      (List.getLast?_eq_some_getLast (List.cons_ne_nil c body))
      ⟨hrest c rfl, hbody _ (List.getLast?_eq_some_getLast (List.cons_ne_nil c body))⟩]

/-- A word with blanks around it is what trimming leaves. -/
theorem IsWord.trimChars_append (h : IsWord w) {before after : List Char}
    (hbefore : ∀ c ∈ before, isBlank c = true) (hafter : ∀ c ∈ after, isBlank c = true) :
    trimChars (before ++ (w.toList ++ after)) = w.toList := by
  have hfirst := List.head?_eq_some_head h.ne_nil
  have hlast := List.getLast?_eq_some_getLast h.ne_nil
  exact Text.trimChars_append hbefore hafter hfirst hlast
    ⟨h.isBlank_eq_false _ (List.head_mem h.ne_nil),
      h.isBlank_eq_false _ (List.getLast_mem h.ne_nil)⟩

theorem IsWord.trim_eq (h : IsWord w) : trim w = w := by
  have htrim : trimChars ([] ++ (w.toList ++ [])) = w.toList :=
    h.trimChars_append (by simp) (by simp)
  rw [List.nil_append, List.append_nil] at htrim
  rw [trim, htrim, String.ofList_toList]

end TopDown.Text
