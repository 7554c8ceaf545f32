import Mathlib.Order.Defs.PartialOrder
import TopDown.Proofs.Grammar.Derivation
import TopDown.First

/-!
# The order of FIRST information

To know more of a string is to know more terminals that it can start with, or that it derives the
empty string. What is known of a string of symbols, or of a choice, is put together from what is
known of its parts by `First.seq` and `First.alt`. A relation that these two respect
(`First.Respected`) therefore passes from the symbols to everything made of them; the order is one
such relation, and agreement about a single question is another.

## Main definitions

* the order on `First`
* `First.Respected`: relations that sequence and choice respect

## Main results

* `First.ofString_append`: a string after another
* `First.mem_ofChoice`, `First.nullable_ofChoice`: a choice knows what its members know
* `First.Respected.ofString`, `First.Respected.ofChoice`: from symbols to strings and choices
-/

namespace TopDown

namespace First

variable {f f' k k' : First} {n : Nat}

theorem ext (hterminals : ∀ n, n ∈ f.terminals ↔ n ∈ f'.terminals)
    (hnullable : f.nullable = true ↔ f'.nullable = true) : f = f' := by
  obtain ⟨s, b⟩ := f
  obtain ⟨s', b'⟩ := f'
  obtain rfl : s = s' := SymbolSet.ext hterminals
  obtain rfl : b = b' := Bool.eq_iff_iff.mpr hnullable
  rfl

/-! ## Sequence and choice -/

@[simp] theorem mem_seq :
    n ∈ (f.seq k).terminals ↔ n ∈ f.terminals ∨ f.nullable = true ∧ n ∈ k.terminals := by
  rw [seq]
  split <;> simp_all

@[simp] theorem nullable_seq :
    (f.seq k).nullable = true ↔ f.nullable = true ∧ k.nullable = true := by
  rw [seq]
  split <;> simp_all

@[simp] theorem mem_alt : n ∈ (f.alt k).terminals ↔ n ∈ f.terminals ∨ n ∈ k.terminals :=
  SymbolSet.mem_union

@[simp] theorem nullable_alt :
    (f.alt k).nullable = true ↔ f.nullable = true ∨ k.nullable = true := by
  simp [alt]

@[simp] theorem mem_vanishing : ¬ n ∈ vanishing.terminals :=
  SymbolSet.not_mem_empty n

@[simp] theorem nullable_vanishing : vanishing.nullable = true := rfl

@[simp] theorem mem_nothing : ¬ n ∈ nothing.terminals :=
  SymbolSet.not_mem_empty n

@[simp] theorem nullable_nothing : ¬ nothing.nullable = true := Bool.false_ne_true

@[simp] theorem mem_terminal {t : Nat} : n ∈ (terminal t).terminals ↔ n = t :=
  SymbolSet.mem_singleton

@[simp] theorem nullable_terminal {t : Nat} : ¬ (terminal t).nullable = true := Bool.false_ne_true

variable {table table' : Array First}

theorem ofString_append (α β : List Nat) :
    ofString table (α ++ β) = (ofString table α).seq (ofString table β) := by
  induction α with
  | nil => exact ext (fun n => by simp [ofString]) (by simp [ofString])
  | cons symbol α ih =>
    simp only [List.cons_append, ofString, ih]
    refine ext (fun n => ?_) ?_
    · simp only [mem_seq, nullable_seq, and_or_left, or_assoc, and_assoc]
    · simp only [nullable_seq, and_assoc]

private theorem ofChoice_step {choice : List (List Nat)} :
    (n ∈ (choice.foldl (fun f α => f.alt (ofString table α)) f).terminals ↔
      n ∈ f.terminals ∨ ∃ α ∈ choice, n ∈ (ofString table α).terminals) ∧
    ((choice.foldl (fun f α => f.alt (ofString table α)) f).nullable = true ↔
      f.nullable = true ∨ ∃ α ∈ choice, (ofString table α).nullable = true) := by
  induction choice generalizing f with
  | nil => simp
  | cons α choice ih =>
    rw [List.foldl_cons, ih.1, ih.2]
    simp [or_assoc]

theorem mem_ofChoice {choice : List (List Nat)} :
    n ∈ (ofChoice table choice).terminals ↔ ∃ α ∈ choice, n ∈ (ofString table α).terminals := by
  rw [ofChoice, ofChoice_step.1]
  simp

theorem nullable_ofChoice {choice : List (List Nat)} :
    (ofChoice table choice).nullable = true ↔
      ∃ α ∈ choice, (ofString table α).nullable = true := by
  rw [ofChoice, (ofChoice_step (n := 0)).2]
  simp

/-! ## The order -/

/-- Less is known if fewer terminals are, and if the empty string is not when it is in the other
case. -/
instance : PartialOrder First where
  le f f' := (∀ n ∈ f.terminals, n ∈ f'.terminals) ∧ (f.nullable = true → f'.nullable = true)
  le_refl _ := ⟨fun _ => id, id⟩
  le_trans _ _ _ h h' := ⟨fun n hn => h'.1 n (h.1 n hn), fun hn => h'.2 (h.2 hn)⟩
  le_antisymm _ _ h h' := ext (fun n => ⟨h.1 n, h'.1 n⟩) ⟨h.2, h'.2⟩

theorem le_def : f ≤ f' ↔
    (∀ n ∈ f.terminals, n ∈ f'.terminals) ∧ (f.nullable = true → f'.nullable = true) := Iff.rfl

/-- A choice knows all that its members know. -/
theorem ofString_le_ofChoice {choice : List (List Nat)} {α : List Nat} (h : α ∈ choice) :
    ofString table α ≤ ofChoice table choice :=
  ⟨fun _ hn => mem_ofChoice.mpr ⟨α, h, hn⟩, fun hn => nullable_ofChoice.mpr ⟨α, h, hn⟩⟩

/-! ## Relations that sequence and choice respect -/

/-- A reflexive relation that sequence and choice respect. -/
structure Respected (R : First → First → Prop) : Prop where
  refl : ∀ f, R f f
  seq : ∀ {f f' k k'}, R f f' → R k k' → R (f.seq k) (f'.seq k')
  alt : ∀ {f f' k k'}, R f f' → R k k' → R (f.alt k) (f'.alt k')

theorem respected_le : Respected (· ≤ ·) where
  refl := le_refl
  seq h h' := by
    rw [le_def] at h h' ⊢
    simp only [mem_seq, nullable_seq]
    constructor
    · rintro n (hn | ⟨hnull, hn⟩)
      · exact Or.inl (h.1 n hn)
      · exact Or.inr ⟨h.2 hnull, h'.1 n hn⟩
    · rintro ⟨hn, hn'⟩
      exact ⟨h.2 hn, h'.2 hn'⟩
  alt h h' := by
    rw [le_def] at h h' ⊢
    simp only [mem_alt, nullable_alt]
    exact ⟨fun n hn => hn.imp (h.1 n) (h'.1 n), fun hn => hn.imp h.2 h'.2⟩

/-- Sequence and choice derive the empty string if their parts do, whatever these start with. -/
theorem respected_nullable :
    Respected fun f f' => f.nullable = true ↔ f'.nullable = true where
  refl _ := Iff.rfl
  seq h h' := by simp only [nullable_seq, h, h']
  alt h h' := by simp only [nullable_alt, h, h']

/-- Whether a terminal is known in the end depends on where it is known at first, and on what
derives the empty string. -/
theorem respected_mem (n : Nat) : Respected fun f f' =>
    (f.nullable = true ↔ f'.nullable = true) ∧ (n ∈ f.terminals ↔ n ∈ f'.terminals) where
  refl _ := ⟨Iff.rfl, Iff.rfl⟩
  seq h h' := by simp only [nullable_seq, mem_seq, h.1, h.2, h'.1, h'.2, and_self]
  alt h h' := by simp only [nullable_alt, mem_alt, h.1, h.2, h'.1, h'.2, and_self]

namespace Respected

variable {R : First → First → Prop}

theorem ofString (hR : Respected R) (h : ∀ s, R (ofSymbol table s) (ofSymbol table' s))
    (α : List Nat) : R (First.ofString table α) (First.ofString table' α) := by
  induction α with
  | nil => exact hR.refl _
  | cons symbol α ih => exact hR.seq (h symbol) ih

theorem ofChoice (hR : Respected R) (h : ∀ s, R (ofSymbol table s) (ofSymbol table' s))
    (choice : List (List Nat)) :
    R (First.ofChoice table choice) (First.ofChoice table' choice) := by
  have hfold : ∀ f f', R f f' → R (choice.foldl (fun f α => f.alt (First.ofString table α)) f)
      (choice.foldl (fun f α => f.alt (First.ofString table' α)) f') := by
    induction choice with
    | nil => exact fun _ _ => id
    | cons α choice ih =>
      intro f f' hf
      apply ih
      exact hR.alt hf (hR.ofString h α)
  exact hfold _ _ (hR.refl _)

end Respected

end First

end TopDown
