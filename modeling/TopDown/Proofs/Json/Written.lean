import Mathlib.Data.List.Forall2
import TopDown.Json.Basic
import TopDown.Json.Reader

/-!
# Reading what was written

A reader takes a written value off the front of a text if what comes after the value cannot belong
to it: nothing, a comma, or the bracket or brace that closes the array or object around it
(`Reads`). A number needs this, since more digits would make it another number; the other values
show themselves where they end. Readers are put together from others, and so are these facts: one
lemma for each way to put readers together says what its written form is.

## Main definitions

* `Reads`: a reader reads a written value, whatever comes after it
* `Collects`: the members of an object are collected one after the other

## Main results

* `reads_string`, `reads_natBelow`, `reads_variant`: single values
* `reads_list`, `reads_record`: arrays and objects
* `readDocument_render`: a text with nothing but the value
-/

namespace TopDown.Json

variable {α β σ : Type}

namespace Reader

/-! ## Readers one after the other -/

/-- A reader goes on where the one before it has stopped. -/
theorem run_bind {reader : Reader α} {f : α → Reader β} {text rest : List Char} {a : α}
    (h : reader text = .ok (a, rest)) : (reader >>= f) text = f a rest := by
  show (reader text >>= fun read => f read.1 read.2) = f a rest
  rw [h]
  rfl

/-- A reader may look at all of the text. -/
theorem get_bind (f : List Char → Reader β) (text : List Char) :
    (get >>= f) text = f text text := rfl

/-- The next character is looked at and left in place. -/
theorem next_cons {c : Char} (hc : isSpace c = false) (rest : List Char) :
    next (c :: rest) = .ok (some c, c :: rest) := by
  simp [next, hc]

theorem advance_cons (c : Char) (rest : List Char) : advance (c :: rest) = .ok ((), rest) := rfl

end Reader

/-! ## Strings -/

namespace Reader

/-- A hexadecimal digit is read as what it was written for. -/
theorem hexValue?_digitChar : ∀ d < 16, hexValue? (Nat.digitChar d) = some d := by
  decide

/-- A control character is read off four digits. -/
theorem stringRest_hex {c : Char} (hc : c.toNat < 0x20) (seen rest : List Char) :
    stringRest true .between seen ('\\' :: 'u' :: '0' :: '0' :: Nat.digitChar (c.toNat / 16) ::
      Nat.digitChar (c.toNat % 16) :: rest) = stringRest true .between (c :: seen) rest := by
  have hhigh := hexValue?_digitChar (c.toNat / 16) (by omega)
  have hlow := hexValue?_digitChar (c.toNat % 16) (by omega)
  have hzero : hexValue? '0' = some 0 := rfl
  have hunit : Unit16.ofNat none c.toNat = .char c := by
    simp only [Unit16.ofNat]
    rw [if_neg (by simp; omega), if_neg (by simp; omega), Char.ofNat_toNat]
  have hall : c.toNat / 16 * 16 + c.toNat % 16 = c.toNat := by omega
  simp [stringRest, hzero, hhigh, hlow, hall, hunit]

/-- **A character of a string** is read as it was written. -/
theorem stringRest_escapeChar (c : Char) (seen rest : List Char) :
    stringRest true .between seen (escapeChar c ++ rest) =
      stringRest true .between (c :: seen) rest := by
  rw [escapeChar.eq_def]
  split
  case h_8 hquote hslash _ _ _ _ _ =>
    split
    · next hcontrol => exact stringRest_hex hcontrol seen rest
    · next hcontrol =>
      rw [List.singleton_append, stringRest, if_neg hquote, if_neg hslash, if_neg hcontrol]
  all_goals rfl

/-- The characters of a string are read up to its quotation mark. -/
theorem stringRest_flatMap (cs seen rest : List Char) :
    stringRest true .between seen (cs.flatMap escapeChar ++ '"' :: rest) =
      .ok (String.ofList (seen.reverse ++ cs), rest) := by
  induction cs generalizing seen with
  | nil => simp [stringRest]
  | cons c cs ih =>
    rw [List.flatMap_cons, List.append_assoc, stringRest_escapeChar, ih, List.reverse_cons,
      List.append_assoc]
    rfl

end Reader

/-- A string is written between quotation marks. -/
theorem toList_quote (s : String) :
    (quote s).toList = '"' :: (s.toList.flatMap escapeChar ++ ['"']) := by
  simp [quote]

namespace Reader

/-- What stands after the first quotation mark of a string. -/
theorem stringRest_quote (s : String) (rest : List Char) :
    stringRest true .between [] (s.toList.flatMap escapeChar ++ ['"'] ++ rest) = .ok (s, rest) := by
  rw [List.append_assoc, List.singleton_append, stringRest_flatMap]
  simp

theorem string_quote (s : String) (rest : List Char) :
    string ((quote s).toList ++ rest) = .ok (s, rest) := by
  rw [toList_quote, List.cons_append, string, run_bind (next_cons (by decide) _)]
  exact (run_bind (advance_cons _ _)).trans (stringRest_quote s rest)

end Reader

/-! ## Values and what comes after them -/

/-- What can come after a value: nothing, or a character that does not belong to it. -/
def IsDelimited (rest : List Char) : Prop :=
  ∀ c ∈ rest.head?, c ∈ [',', ']', '}']

theorem isDelimited_nil : IsDelimited [] := by
  simp [IsDelimited]

theorem isDelimited_cons {c : Char} (h : c ∈ [',', ']', '}']) (rest : List Char) :
    IsDelimited (c :: rest) := by
  simpa [IsDelimited] using h

/-- What comes next does not belong to the value. -/
theorem IsDelimited.head?_eq_false {rest : List Char} (h : IsDelimited rest) {accept : Char → Bool}
    (haccept : [',', ']', '}'].any accept = false) : ∀ c ∈ rest.head?, accept c = false :=
  fun c hc => Bool.eq_false_iff.2 (List.any_eq_false.mp haccept c (h c hc))

/-- A written value, character by character. -/
def chars (value : Json) : List Char :=
  value.render.toList

/-- A reader takes a written value off the front of a text, whatever comes after it. -/
def Reads (reader : Reader α) (value : Json) (a : α) : Prop :=
  ∀ rest, IsDelimited rest → reader (value.chars ++ rest) = .ok (a, rest)

theorem Reads.map {reader : Reader α} {value : Json} {a : α} (h : Reads reader value a)
    {f : α → Reader β} {b : β} (hf : ∀ rest, f a rest = .ok (b, rest)) :
    Reads (reader >>= f) value b := fun rest hrest =>
  (Reader.run_bind (h rest hrest)).trans (hf rest)

/-! ## Numbers -/

namespace Reader

/-- Only zero begins with a zero. -/
theorem head?_toDigits_ne_zero {n : Nat} (hn : n ≠ 0) : '0' ∉ (Nat.toDigits 10 n).head? := by
  induction n using Nat.strongRecOn with
  | ind n ih =>
    rcases Nat.lt_or_ge n 10 with hlt | hge
    · have hall : ∀ n < 10, n ≠ 0 → '0' ∉ ([Nat.digitChar n] : List Char).head? := by decide
      rw [Nat.toDigits_of_lt_base hlt]
      exact hall n hlt hn
    · rw [Nat.toDigits_of_base_le (by decide) hge,
        List.head?_append_of_ne_nil _ Nat.toDigits_ne_nil]
      exact ih (n / 10) (by omega) (by omega)

theorem takeWhile_digits {digits rest : List Char} (hdigits : ∀ c ∈ digits, c.isDigit = true)
    (hrest : ∀ c ∈ rest.head?, c.isDigit = false) :
    (digits ++ rest).takeWhile Char.isDigit = digits ∧
      (digits ++ rest).dropWhile Char.isDigit = rest := by
  rw [List.takeWhile_append_of_pos hdigits, List.dropWhile_append_of_pos hdigits]
  cases rest with
  | nil => simp
  | cons c rest => simp [hrest c rfl]

/-- The digits of a number are read. -/
theorem wholeDigits_toDigits (n : Nat) {rest : List Char} (hrest : IsDelimited rest) :
    wholeDigits (Nat.toDigits 10 n ++ rest) = .ok (Nat.toDigits 10 n, rest) := by
  have hnext : ∀ c ∈ rest.head?, c.isDigit = false := hrest.head?_eq_false (by decide)
  have hsome : someDigits (Nat.toDigits 10 n ++ rest) = .ok (Nat.toDigits 10 n, rest) := by
    have hdigits : ∀ c ∈ Nat.toDigits 10 n, c.isDigit = true := fun _ =>
      Nat.isDigit_of_mem_toDigits (by decide) (by decide)
    obtain ⟨htake, hdrop⟩ := takeWhile_digits hdigits hnext
    rw [someDigits, htake, hdrop]
    split
    · next heq => exact absurd heq Nat.toDigits_ne_nil
    · rfl
  by_cases hn : n = 0
  · subst hn
    rw [Nat.toDigits_zero] at hsome ⊢
    cases rest with
    | nil => exact hsome
    | cons c rest =>
      show (if c.isDigit then _ else _) = _
      rw [hnext c rfl]
      rfl
  · have hzero := head?_toDigits_ne_zero hn
    rw [wholeDigits.eq_def]
    split
    · next c more heq =>
      exfalso
      apply hzero
      have hhead := congrArg List.head? heq
      rwa [List.head?_append_of_ne_nil _ Nat.toDigits_ne_nil] at hhead
    · exact hsome

/-- The digits of a number begin with a digit. -/
theorem exists_toDigits_eq_cons (n : Nat) :
    ∃ d ds, Nat.toDigits 10 n = d :: ds ∧ d.isDigit = true := by
  obtain ⟨d, ds, h⟩ := List.exists_cons_of_ne_nil (Nat.toDigits_ne_nil (b := 10) (n := n))
  have hmem : d ∈ Nat.toDigits 10 n := h ▸ List.mem_cons_self
  exact ⟨d, ds, h, Nat.isDigit_of_mem_toDigits (by decide) (by decide) hmem⟩

theorem optional_eq_false {accept : Char → Bool} {text : List Char}
    (h : ∀ c ∈ text.head?, accept c = false) : optional accept text = .ok (false, text) := by
  cases text with
  | nil => rfl
  | cons c text => rw [optional, h c rfl]; rfl

/-- A written number has neither sign nor fraction nor exponent. -/
theorem numeral_toDigits (n : Nat) {rest : List Char} (hrest : IsDelimited rest) :
    numeral (Nat.toDigits 10 n ++ rest) = .ok (⟨false, Nat.toDigits 10 n, true⟩, rest) := by
  obtain ⟨d, ds, hdigits, hd⟩ := exists_toDigits_eq_cons n
  have hsign : optional (· == '-') (Nat.toDigits 10 n ++ rest) =
      .ok (false, Nat.toDigits 10 n ++ rest) := by
    rw [hdigits]
    refine optional_eq_false fun c hc => ?_
    obtain rfl : d = c := by simpa using hc
    exact beq_false_of_ne (by rintro rfl; cases hd)
  have hskip (accept : Char → Bool) (haccept : [',', ']', '}'].any accept = false) :
      optional accept rest = .ok (false, rest) :=
    optional_eq_false (hrest.head?_eq_false haccept)
  rw [numeral, run_bind hsign, run_bind (wholeDigits_toDigits n hrest),
    run_bind (hskip (· == '.') (by decide))]
  exact run_bind (hskip (fun c => c == 'e' || c == 'E') (by decide))

theorem isSpace_of_isDigit {c : Char} (h : c.isDigit = true) : isSpace c = false := by
  have hnone : [' ', '\n', '\t', '\r'].any Char.isDigit = false := by decide
  have hmem (hc : isSpace c = true) : c ∈ [' ', '\n', '\t', '\r'] := by
    simpa [isSpace, or_assoc] using hc
  exact Bool.eq_false_iff.2 fun hc => List.any_eq_false.mp hnone c (hmem hc) h

end Reader

theorem chars_number (n : Nat) : (Json.number n).chars = Nat.toDigits 10 n := by
  rw [chars, render, Nat.toList_repr]

/-- **A number** is read if it is below the bound. -/
theorem reads_natBelow {n bound : Nat} (h : n < bound) :
    Reads (Reader.natBelow bound) (.number n) n := by
  intro rest hrest
  obtain ⟨d, ds, hdigits, hd⟩ := Reader.exists_toDigits_eq_cons n
  have hnext : Reader.next (Nat.toDigits 10 n ++ rest) =
      .ok (some d, Nat.toDigits 10 n ++ rest) := by
    rw [hdigits]
    exact Reader.next_cons (Reader.isSpace_of_isDigit hd) _
  rw [chars_number, Reader.natBelow, Reader.run_bind hnext]
  dsimp only
  rw [if_pos (by simp [hd]), Reader.run_bind (Reader.numeral_toDigits n hrest)]
  dsimp only
  rw [Nat.ofDigitChars_ten_toDigits, if_neg (by simpa using h)]
  rfl

/-! ## Strings and names -/

theorem chars_string (s : String) : (Json.string s).chars = (quote s).toList := by
  rw [chars, render]

/-- **A string** is read, whatever its characters are. -/
theorem reads_string (s : String) : Reads Reader.string (.string s) s := by
  intro rest _
  rw [chars_string]
  exact Reader.string_quote s rest

/-- **A name** of a table is read as what it stands for. -/
theorem reads_variant {table : List (String × α)} {name : String} {a : α}
    (h : table.lookup name = some a) : Reads (Reader.variant table) (.string name) a := by
  intro rest _
  have hnext : Reader.next ((quote name).toList ++ rest) =
      .ok (some '"', (quote name).toList ++ rest) := by
    rw [toList_quote]
    exact Reader.next_cons (by decide) _
  rw [chars_string, Reader.variant, Reader.run_bind hnext]
  show Reader.named table _ = _
  rw [Reader.named, Reader.run_bind (Reader.string_quote name rest), h]
  rfl

/-! ## Texts between brackets -/

/-- Texts that each stand after a comma, and the bracket that closes. -/
def continued (close : Char) : List (List Char) → List Char
  | [] => [close]
  | text :: texts => ',' :: (text ++ continued close texts)

/-- Texts with commas between them, and the bracket that closes. -/
def listed (close : Char) : List (List Char) → List Char
  | [] => [close]
  | text :: texts => text ++ continued close texts

theorem listed_eq_intercalate (close : Char) (texts : List (List Char)) :
    listed close texts = [','].intercalate texts ++ [close] := by
  have hcontinued (text : List Char) (texts : List (List Char)) :
      text ++ continued close texts = [','].intercalate (text :: texts) ++ [close] := by
    induction texts generalizing text with
    | nil => simp [continued]
    | cons next texts ih =>
      rw [continued, ih, List.intercalate_cons_cons]
      simp
  cases texts with
  | nil => rfl
  | cons text texts => exact hcontinued text texts

/-- Every text takes at least a comma or the bracket. -/
theorem length_lt_length_continued (close : Char) (texts : List (List Char)) :
    texts.length < (continued close texts).length := by
  induction texts with
  | nil => simp [continued]
  | cons text texts ih =>
    rw [continued, List.length_cons, List.length_cons, List.length_append]
    omega

/-- What goes on with a comma or a bracket does not belong to the value before it. -/
theorem isDelimited_continued {close : Char} (h : close ∈ [',', ']', '}'])
    (texts : List (List Char)) (rest : List Char) :
    IsDelimited (continued close texts ++ rest) := by
  cases texts with
  | nil => exact isDelimited_cons h rest
  | cons text texts => exact isDelimited_cons (by decide) _

theorem chars_array (values : List Json) :
    (Json.array values).chars = '[' :: listed ']' (values.map chars) := by
  rw [chars, render, renderItems_eq_map, String.toList_append, String.toList_append,
    String.toList_intercalate, List.map_map, listed_eq_intercalate]
  rfl

/-- A member as it is written: its key, a colon and its value. -/
def memberChars (member : String × Json) : List Char :=
  (quote member.1).toList ++ ':' :: member.2.chars

theorem chars_object (members : List (String × Json)) :
    (Json.object members).chars = '{' :: listed '}' (members.map memberChars) := by
  have hmembers : (members.map fun m => quote m.1 ++ ":" ++ m.2.render).map String.toList =
      members.map memberChars := by
    simp [memberChars, chars, Function.comp_def]
  rw [chars, render, renderMembers_eq_map, String.toList_append, String.toList_append,
    String.toList_intercalate, hmembers, listed_eq_intercalate]
  rfl

/-- No value begins with a space or with the end of an array. -/
theorem next_chars (value : Json) (rest : List Char) :
    ∃ c, Reader.next (value.chars ++ rest) = .ok (some c, value.chars ++ rest) ∧ c ≠ ']' := by
  have hcons {text : List Char} (c : Char) (cs : List Char) (htext : text = c :: cs)
      (hc : Reader.isSpace c = false ∧ c ≠ ']') :
      ∃ c, Reader.next (text ++ rest) = .ok (some c, text ++ rest) ∧ c ≠ ']' :=
    ⟨c, htext ▸ Reader.next_cons hc.1 (cs ++ rest), hc.2⟩
  cases value with
  | null => exact hcons _ _ rfl (by decide)
  | bool b => cases b <;> exact hcons _ _ rfl (by decide)
  | number n =>
    obtain ⟨d, ds, hdigits, hd⟩ := Reader.exists_toDigits_eq_cons n
    exact hcons d ds ((chars_number n).trans hdigits)
      ⟨Reader.isSpace_of_isDigit hd, by rintro rfl; cases hd⟩
  | string s => exact hcons _ _ ((chars_string s).trans (toList_quote s)) (by decide)
  | array values => exact hcons _ _ (chars_array values) (by decide)
  | object members => exact hcons _ _ (chars_object members) (by decide)

/-! ## Arrays -/

namespace Reader

variable {item : Reader α}

/-- An array ends. -/
theorem itemsRest_close (bound : Nat) (first : Bool) (rest : List Char) :
    itemsRest item (bound + 1) first (']' :: rest) = .ok ([], rest) := by
  rw [itemsRest]
  exact (run_bind (next_cons (by decide) _)).trans (run_bind (advance_cons _ _))

/-- The first item of an array. -/
theorem itemsRest_first {bound : Nat} {value : Json} {a : α} {as : List α}
    {more rest : List Char} (hitem : item (value.chars ++ more) = .ok (a, more))
    (hmore : itemsRest item bound false more = .ok (as, rest)) :
    itemsRest item (bound + 1) true (value.chars ++ more) = .ok (a :: as, rest) := by
  obtain ⟨c, hnext, hc⟩ := next_chars value more
  rw [itemsRest, run_bind hnext]
  simp only
  exact (run_bind hitem).trans (run_bind hmore)

/-- One more item of an array. -/
theorem itemsRest_comma {bound : Nat} {value : Json} {a : α} {as : List α}
    {more rest : List Char} (hitem : item (value.chars ++ more) = .ok (a, more))
    (hmore : itemsRest item bound false more = .ok (as, rest)) :
    itemsRest item (bound + 1) false (',' :: (value.chars ++ more)) = .ok (a :: as, rest) := by
  obtain ⟨c, hnext, hc⟩ := next_chars value more
  rw [itemsRest, run_bind (next_cons (by decide) _)]
  refine (run_bind (advance_cons _ _)).trans ?_
  rw [run_bind hnext]
  simp only
  exact (run_bind hitem).trans (run_bind hmore)

/-- The items that follow are read to the end of the array. -/
theorem itemsRest_continued {values : List Json} {as : List α}
    (h : List.Forall₂ (Reads item) values as) {bound : Nat} (hbound : values.length < bound)
    (rest : List Char) :
    itemsRest item bound false (continued ']' (values.map chars) ++ rest) = .ok (as, rest) := by
  induction h generalizing bound with
  | nil =>
    obtain ⟨bound, rfl⟩ := Nat.exists_eq_add_of_lt hbound
    exact itemsRest_close _ _ _
  | @cons value a values as hitem _ ih =>
    cases bound with
    | zero => cases hbound
    | succ bound =>
      have hmore : IsDelimited (continued ']' (values.map chars) ++ rest) :=
        isDelimited_continued (by decide) _ _
      rw [List.map_cons, continued, List.cons_append, List.append_assoc]
      exact itemsRest_comma (hitem _ hmore) (ih (Nat.lt_of_succ_lt_succ hbound))

/-- The items of an array are read from its first bracket on. -/
theorem items_listed {values : List Json} {as : List α}
    (h : List.Forall₂ (Reads item) values as) (rest : List Char) :
    items item (listed ']' (values.map chars) ++ rest) = .ok (as, rest) := by
  rw [items, get_bind]
  cases h with
  | nil => exact itemsRest_close _ _ _
  | @cons value a values as hitem hitems =>
    have hmore : IsDelimited (continued ']' (values.map chars) ++ rest) :=
      isDelimited_continued (by decide) _ _
    have hlength := length_lt_length_continued ']' (values.map chars)
    rw [List.map_cons, listed, List.append_assoc]
    refine itemsRest_first (hitem _ hmore) (itemsRest_continued hitems ?_ rest)
    rw [List.length_map] at hlength
    rw [List.length_append, List.length_append]
    omega

end Reader

/-- **An array** is read if its items are. -/
theorem reads_list {item : Reader α} {values : List Json} {as : List α}
    (h : List.Forall₂ (Reads item) values as) : Reads (Reader.list item) (.array values) as := by
  intro rest _
  rw [chars_array, List.cons_append, Reader.list, Reader.run_bind (Reader.next_cons (by decide) _)]
  exact (Reader.run_bind (Reader.advance_cons _ _)).trans (Reader.items_listed h rest)

/-! ## Objects -/

/-- The values of some members are read one after the other, each into what has been collected
before it. -/
inductive Collects (value : String → σ → Reader σ) : List (String × Json) → σ → σ → Prop
  | nil (collected : σ) : Collects value [] collected collected
  | cons {key : String} {v : Json} {members : List (String × Json)} {s s' t : σ}
      (head : Reads (value key s) v s') (tail : Collects value members s' t) :
      Collects value ((key, v) :: members) s t

namespace Reader

variable {value : String → σ → Reader σ}

theorem colon_cons (rest : List Char) : colon (':' :: rest) = .ok ((), rest) := by
  rw [colon]
  exact (run_bind (next_cons (by decide) _)).trans (advance_cons _ _)

/-- A member begins with a quotation mark. -/
theorem next_memberChars (member : String × Json) (rest : List Char) :
    next (memberChars member ++ rest) = .ok (some '"', memberChars member ++ rest) := by
  rw [memberChars, toList_quote]
  exact next_cons (by decide) _

/-- A member is read, from its first quotation mark to its value. -/
theorem member_memberChars {key : String} {v : Json} {s s' : σ}
    (h : Reads (value key s) v s') {more : List Char} (hmore : IsDelimited more)
    (f : σ → Reader β) :
    (advance >>= fun _ => (stringRest true .between [] : Reader String) >>= fun k =>
      colon >>= fun _ => value k s >>= f) (memberChars (key, v) ++ more) = f s' more := by
  have hkey : memberChars (key, v) ++ more =
      '"' :: (key.toList.flatMap escapeChar ++ ['"'] ++ ':' :: (v.chars ++ more)) := by
    simp [memberChars, toList_quote]
  rw [hkey, run_bind (advance_cons _ _), run_bind (stringRest_quote key _),
    run_bind (colon_cons _), run_bind (h more hmore)]

/-- An object ends. -/
theorem membersRest_close (bound : Nat) (first : Bool) (s : σ) (rest : List Char) :
    membersRest (stringRest true .between []) value (bound + 1) first s ('}' :: rest) =
      .ok (s, rest) := by
  rw [membersRest]
  exact (run_bind (next_cons (by decide) _)).trans (run_bind (advance_cons _ _))

/-- The first member of an object. -/
theorem membersRest_first {bound : Nat} {key : String} {v : Json} {s s' t : σ}
    {more rest : List Char} (h : Reads (value key s) v s') (hmore : IsDelimited more)
    (hrest : membersRest (stringRest true .between []) value bound false s' more = .ok (t, rest)) :
    membersRest (stringRest true .between []) value (bound + 1) true s
      (memberChars (key, v) ++ more) = .ok (t, rest) := by
  rw [membersRest, run_bind (next_memberChars _ more)]
  exact (member_memberChars h hmore _).trans hrest

/-- One more member of an object. -/
theorem membersRest_comma {bound : Nat} {key : String} {v : Json} {s s' t : σ}
    {more rest : List Char} (h : Reads (value key s) v s') (hmore : IsDelimited more)
    (hrest : membersRest (stringRest true .between []) value bound false s' more = .ok (t, rest)) :
    membersRest (stringRest true .between []) value (bound + 1) false s
      (',' :: (memberChars (key, v) ++ more)) = .ok (t, rest) := by
  rw [membersRest, run_bind (next_cons (by decide) _)]
  refine (run_bind (advance_cons _ _)).trans ((run_bind (next_memberChars _ more)).trans ?_)
  exact (member_memberChars h hmore _).trans hrest

/-- The members that follow are read to the end of the object. -/
theorem membersRest_continued {members : List (String × Json)} {s t : σ}
    (h : Collects value members s t) {bound : Nat} (hbound : members.length < bound)
    (rest : List Char) :
    membersRest (stringRest true .between []) value bound false s
      (continued '}' (members.map memberChars) ++ rest) = .ok (t, rest) := by
  induction h generalizing bound with
  | nil s =>
    obtain ⟨bound, rfl⟩ := Nat.exists_eq_add_of_lt hbound
    exact membersRest_close _ _ _ _
  | @cons key v members s s' t head _ ih =>
    cases bound with
    | zero => cases hbound
    | succ bound =>
      have hmore : IsDelimited (continued '}' (members.map memberChars) ++ rest) :=
        isDelimited_continued (by decide) _ _
      rw [List.map_cons, continued, List.cons_append, List.append_assoc]
      exact membersRest_comma head hmore (ih (Nat.lt_of_succ_lt_succ hbound))

/-- The members of an object are read from its first brace on. -/
theorem members_listed {ms : List (String × Json)} {s t : σ} (h : Collects value ms s t)
    (rest : List Char) :
    members (stringRest true .between []) value s (listed '}' (ms.map memberChars) ++ rest) =
      .ok (t, rest) := by
  rw [members, get_bind]
  cases h with
  | nil => exact membersRest_close _ _ _ _
  | @cons key v ms s s' t head tail =>
    have hmore : IsDelimited (continued '}' (ms.map memberChars) ++ rest) :=
      isDelimited_continued (by decide) _ _
    have hlength := length_lt_length_continued '}' (ms.map memberChars)
    rw [List.map_cons, listed, List.append_assoc]
    refine membersRest_first head hmore (membersRest_continued tail ?_ rest)
    rw [List.length_map] at hlength
    rw [List.length_append, List.length_append]
    omega

end Reader

/-- **A structure** is read from an object if its members can be collected. -/
theorem reads_record {fields : List (Reader.Field σ)} {members : List (String × Json)} {s t : σ}
    (h : Collects (Reader.fieldValue fields) members s t) (expected : String) :
    Reads (Reader.record expected fields s) (.object members) t := by
  intro rest _
  rw [chars_object, List.cons_append, Reader.record,
    Reader.run_bind (Reader.next_cons (by decide) _)]
  exact (Reader.run_bind (Reader.advance_cons _ _)).trans (Reader.members_listed h rest)

/-- The value of a member that is not there yet is read as its field says. -/
theorem fieldValue_eq_read {fields : List (Reader.Field σ)} {key : String}
    {field : Reader.Field σ} {s : σ} (hfind : fields.find? (·.name == key) = some field)
    (hset : field.isSet s = false) : Reader.fieldValue fields key s = field.read s := by
  rw [Reader.fieldValue, hfind]
  simp only [hset]
  rfl

/-! ## Whole texts -/

/-- **A text with nothing but a written value** is read. -/
theorem readDocument_render {reader : Reader α} {value : Json} {a : α}
    (h : Reads reader value a) : Reader.readDocument reader value.render = .ok a := by
  have hread : reader value.render.toList = .ok (a, []) := by
    simpa [chars] using h [] isDelimited_nil
  rw [Reader.readDocument, hread]
  rfl

end TopDown.Json
