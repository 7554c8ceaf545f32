/-!
# Sets of symbols

Symbols are known by number. A set of them is the list of its members in increasing order, so that
two sets with the same members are equal (`SymbolSet.ext`), and a set is always shown in the order
in which its symbols were registered.
-/

namespace TopDown

/-- A finite set of symbol numbers: its members in increasing order. -/
structure SymbolSet where
  members : List Nat
  increasing : members.Pairwise (· < ·)
  deriving DecidableEq

namespace SymbolSet

instance : EmptyCollection SymbolSet := ⟨⟨[], .nil⟩⟩

instance : Inhabited SymbolSet := ⟨∅⟩

instance : Membership Nat SymbolSet := ⟨fun s n => n ∈ s.members⟩

instance (n : Nat) (s : SymbolSet) : Decidable (n ∈ s) :=
  inferInstanceAs (Decidable (n ∈ s.members))

theorem mem_def {n : Nat} {s : SymbolSet} : n ∈ s ↔ n ∈ s.members := Iff.rfl

@[simp] theorem not_mem_empty (n : Nat) : n ∉ (∅ : SymbolSet) := by
  simp [mem_def, EmptyCollection.emptyCollection]

/-- Two sets with the same members are equal. -/
theorem ext {s t : SymbolSet} (h : ∀ n, n ∈ s ↔ n ∈ t) : s = t := by
  have hperm : s.members.Perm t.members :=
    (List.perm_ext_iff_of_nodup (s.increasing.imp Nat.ne_of_lt)
      (t.increasing.imp Nat.ne_of_lt)).2 h
  have heq := hperm.eq_of_pairwise (fun _ _ _ _ hab hba => absurd hab (Nat.lt_asymm hba))
    s.increasing t.increasing
  cases s
  cases t
  simpa using heq

/-- A list in increasing order with one more member. -/
def insertInto (n : Nat) : List Nat → List Nat
  | [] => [n]
  | m :: ms => if n < m then n :: m :: ms else if n = m then m :: ms else m :: insertInto n ms

theorem mem_insertInto {k n : Nat} {ms : List Nat} : k ∈ insertInto n ms ↔ k = n ∨ k ∈ ms := by
  induction ms with
  | nil => simp [insertInto]
  | cons m ms ih => grind [insertInto]

theorem pairwise_insertInto {n : Nat} {ms : List Nat} (h : ms.Pairwise (· < ·)) :
    (insertInto n ms).Pairwise (· < ·) := by
  induction ms with
  | nil => simp [insertInto]
  | cons m ms ih =>
    obtain ⟨hm, hms⟩ := List.pairwise_cons.1 h
    rw [insertInto]
    split
    · next hlt =>
      refine List.pairwise_cons.2 ⟨fun k hk => ?_, h⟩
      rcases List.mem_cons.1 hk with rfl | hk
      · exact hlt
      · exact Nat.lt_trans hlt (hm k hk)
    · next hlt =>
      split
      · exact h
      · next hne =>
        refine List.pairwise_cons.2 ⟨fun k hk => ?_, ih hms⟩
        rcases mem_insertInto.1 hk with rfl | hk
        · omega
        · exact hm k hk

/-- A set with one more member. -/
def insert (n : Nat) (s : SymbolSet) : SymbolSet :=
  ⟨insertInto n s.members, pairwise_insertInto s.increasing⟩

@[simp] theorem mem_insert {k n : Nat} {s : SymbolSet} : k ∈ s.insert n ↔ k = n ∨ k ∈ s :=
  mem_insertInto

instance : Singleton Nat SymbolSet := ⟨fun n => (∅ : SymbolSet).insert n⟩

@[simp] theorem mem_singleton {k n : Nat} : k ∈ ({n} : SymbolSet) ↔ k = n := by
  simp [Singleton.singleton]

/-- The members of both sets together. -/
def union (s t : SymbolSet) : SymbolSet :=
  t.members.foldl (fun u n => u.insert n) s

instance : Union SymbolSet := ⟨union⟩

theorem mem_foldl_insert {k : Nat} {ms : List Nat} {s : SymbolSet} :
    k ∈ ms.foldl (fun u n => u.insert n) s ↔ k ∈ s ∨ k ∈ ms := by
  induction ms generalizing s with
  | nil => simp
  | cons m ms ih =>
    rw [List.foldl_cons, ih, mem_insert, List.mem_cons]
    grind

@[simp] theorem mem_union {k : Nat} {s t : SymbolSet} : k ∈ s ∪ t ↔ k ∈ s ∨ k ∈ t :=
  mem_foldl_insert

end SymbolSet

end TopDown
