import TopDown.Json.Reader

/-!
# What a reader promises

Readers accept many texts that nobody would write: spaces, keys in any order, unknown members,
arrays in the place of objects. What they return has its properties all the same (`Ensures`). A
reader that goes on after another one promises what it makes of the other one's promise, and a loop
promises what each of its rounds keeps.

## Main definitions

* `Ensures`: everything that a reader returns has a property

## Main results

* `ensures_natBelow`: numbers are below their bound
* `Ensures.list`: the items of a list have the property that the reader of items promises
* `Ensures.record`: what every field keeps, a structure keeps, whichever way it is written
* `Ensures.of_readDocument`: the value of a whole text
-/

namespace TopDown.Json.Reader

variable {α β κ σ : Type} {P : α → Prop} {Q : β → Prop}

/-- Everything that a reader returns has a property. -/
def Ensures (reader : Reader α) (P : α → Prop) : Prop :=
  ∀ text a rest, reader text = .ok (a, rest) → P a

/-! ## One reader after the other -/

theorem Ensures.pure {a : α} (h : P a) : Ensures (Pure.pure a) P := by
  intro text b rest hb
  cases hb
  exact h

theorem ensures_refuse (cause : Cause) (P : α → Prop) : Ensures (refuse cause) P :=
  fun _ _ _ h => nomatch h

theorem ensures_refuseNext (cause : Cause) (P : α → Prop) : Ensures (refuseNext cause) P :=
  fun _ _ _ h => nomatch h

/-- A reader that has returned was the one before it first. -/
theorem exists_of_bind {reader : Reader α} {f : α → Reader β} {text rest : List Char} {b : β}
    (h : (reader >>= f) text = .ok (b, rest)) :
    ∃ a more, reader text = .ok (a, more) ∧ f a more = .ok (b, rest) := by
  have hbind : (reader text >>= fun read => f read.1 read.2) = .ok (b, rest) := h
  cases hread : reader text with
  | error refusal => rw [hread] at hbind; cases hbind
  | ok read =>
    rw [hread] at hbind
    exact ⟨read.1, read.2, rfl, hbind⟩

/-- A reader may use what the one before it promises. -/
theorem Ensures.bind {reader : Reader α} {f : α → Reader β} (h : Ensures reader P)
    (hf : ∀ a, P a → Ensures (f a) Q) : Ensures (reader >>= f) Q := by
  intro text b rest hb
  obtain ⟨a, more, hread, hgo⟩ := exists_of_bind hb
  exact hf a (h text a more hread) more b rest hgo

/-- A reader need not use what the one before it has read. -/
theorem Ensures.after {reader : Reader α} {f : α → Reader β} (hf : ∀ a, Ensures (f a) Q) :
    Ensures (reader >>= f) Q :=
  Ensures.bind (P := fun _ => True) (fun _ _ _ _ => trivial) fun a _ => hf a

/-! ## Numbers -/

theorem ensures_natBelow (bound : Nat) : Ensures (natBelow bound) (· < bound) := by
  refine .after fun c => ?_
  split
  · exact ensures_refuseNext _ _
  · split
    · refine .after fun numeral => ?_
      dsimp only
      split
      · exact ensures_refuse _ _
      · next h =>
        simp only [Bool.or_eq_true, decide_eq_true_eq, not_or] at h
        exact .pure (Nat.lt_of_not_le h.2)
    · exact ensures_refuseNext _ _

/-! ## Lists -/

theorem Ensures.cons {item : Reader α} {items : Reader (List α)} (h : Ensures item P)
    (hitems : Ensures items (∀ a ∈ ·, P a)) :
    Ensures (do let a ← item; return a :: (← items)) (∀ a ∈ ·, P a) :=
  h.bind fun _ ha => hitems.bind fun _ has => .pure (List.forall_mem_cons.2 ⟨ha, has⟩)

theorem Ensures.itemsRest {item : Reader α} (h : Ensures item P) (bound : Nat) (first : Bool) :
    Ensures (itemsRest item bound first) (∀ a ∈ ·, P a) := by
  induction bound generalizing first with
  | zero => exact ensures_refuseNext _ _
  | succ bound ih =>
    rw [Reader.itemsRest]
    refine .after fun c => ?_
    split
    · exact ensures_refuseNext _ _
    · exact .after fun _ => .pure (by simp)
    · split
      · exact h.cons (ih false)
      · split
        · refine .after fun _ => .after fun c => ?_
          split
          · exact ensures_refuseNext _ _
          · exact ensures_refuseNext _ _
          · exact h.cons (ih false)
        · exact ensures_refuseNext _ _

/-- **A list** has items as the reader of items promises them. -/
theorem Ensures.list {item : Reader α} (h : Ensures item P) :
    Ensures (list item) (∀ a ∈ ·, P a) := by
  refine .after fun c => ?_
  split
  · exact ensures_refuseNext _ _
  · exact .after fun _ => .after fun unread => h.itemsRest _ _
  · exact ensures_refuseNext _ _

/-! ## Structures -/

variable {I : σ → Prop}

theorem Ensures.membersRest {key : Reader κ} {value : κ → σ → Reader σ}
    (h : ∀ k s, I s → Ensures (value k s) I) (bound : Nat) (first : Bool) {s : σ} (hs : I s) :
    Ensures (membersRest key value bound first s) I := by
  induction bound generalizing first s with
  | zero => exact ensures_refuseNext _ _
  | succ bound ih =>
    have hmember : Ensures (do
        advance
        let k ← key
        colon
        Reader.membersRest key value bound false (← value k s)) I :=
      .after fun _ => .after fun k => .after fun _ => (h k s hs).bind fun _ hs' => ih false hs'
    rw [Reader.membersRest]
    refine .after fun c => ?_
    split
    · exact ensures_refuseNext _ _
    · exact .after fun _ => .pure hs
    · split
      · split
        · exact hmember
        · exact ensures_refuseNext _ _
      · split
        · refine .after fun _ => .after fun c => ?_
          split
          · exact ensures_refuseNext _ _
          · exact ensures_refuseNext _ _
          · exact hmember
          · exact ensures_refuseNext _ _
        · exact ensures_refuseNext _ _

/-- An unknown member leaves what has been collected as it is. -/
theorem Ensures.fieldValue {fields : List (Field σ)}
    (h : ∀ field ∈ fields, ∀ s, I s → Ensures (field.read s) I) (key : String) {s : σ}
    (hs : I s) : Ensures (fieldValue fields key s) I := by
  rw [Reader.fieldValue]
  split
  · exact .after fun _ => .pure hs
  · next field hfind =>
    split
    · exact ensures_refuse _ _
    · exact h field (List.mem_of_find?_eq_some hfind) s hs

theorem Ensures.fieldsInOrder {fields : List (Field σ)}
    (h : ∀ field ∈ fields, ∀ s, I s → Ensures (field.read s) I) (first : Bool) {s : σ}
    (hs : I s) : Ensures (fieldsInOrder fields first s) I := by
  induction fields generalizing first s with
  | nil => exact .after fun _ => .pure hs
  | cons field fields ih =>
    have hfield : Ensures (do
        Reader.fieldsInOrder fields false (← field.read s)) I :=
      (h field List.mem_cons_self s hs).bind fun _ hs' =>
        ih (fun field hfield => h field (List.mem_cons_of_mem _ hfield)) false hs'
    rw [Reader.fieldsInOrder]
    refine .after fun c => ?_
    split
    · exact ensures_refuseNext _ _
    · exact .after fun _ => .pure hs
    · split
      · exact hfield
      · split
        · refine .after fun _ => .after fun c => ?_
          split
          · exact ensures_refuseNext _ _
          · exact ensures_refuseNext _ _
          · exact hfield
        · exact ensures_refuseNext _ _

/-- **A structure** keeps what each of its fields keeps, whether it is written as an object or as
an array. -/
theorem Ensures.record {fields : List (Field σ)}
    (h : ∀ field ∈ fields, ∀ s, I s → Ensures (field.read s) I) (expected : String) {s : σ}
    (hs : I s) : Ensures (record expected fields s) I := by
  refine .after fun c => ?_
  split
  · exact ensures_refuseNext _ _
  · exact .after fun _ => .after fun unread =>
      .membersRest (fun key _ hs => .fieldValue h key hs) _ _ hs
  · exact .after fun _ => .fieldsInOrder h true hs
  · exact ensures_refuseNext _ _

/-! ## Whole texts -/

/-- What a reader promises holds of the value of a whole text. -/
theorem Ensures.of_readDocument {reader : Reader α} (h : Ensures reader P) {text : String} {a : α}
    (ha : readDocument reader text = .ok a) : P a := by
  rw [readDocument] at ha
  cases hread : reader text.toList with
  | error refusal => rw [hread] at ha; cases ha
  | ok read =>
    rw [hread] at ha
    obtain rfl : read.1 = a := by
      dsimp only [Bind.bind, Except.bind] at ha
      split at ha
      · exact Except.ok.inj ha
      · cases ha
    exact h _ read.1 read.2 hread

end TopDown.Json.Reader
