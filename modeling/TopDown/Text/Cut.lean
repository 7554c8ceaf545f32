/-!
# Cutting a text at a mark

A text that holds a mark is cut at the first place where the mark stands. The main statement,
`append_of_cutAt`, says that nothing is lost: what stood before, the mark, and what stood after
make up the text again.
-/

namespace TopDown.Text

/-- What stands before and after the first occurrence of a mark, if the mark occurs. The empty
mark is found in front of the first character. -/
def cutAt (mark : List Char) : List Char → Option (List Char × List Char)
  | [] => none
  | c :: cs =>
    if mark.isPrefixOf (c :: cs) then some ([], (c :: cs).drop mark.length)
    else (cutAt mark cs).map fun (before, after) => (c :: before, after)

/-- The two parts of a cut and the mark between them are the whole text. -/
theorem append_of_cutAt {mark cs before after : List Char}
    (h : cutAt mark cs = some (before, after)) : before ++ (mark ++ after) = cs := by
  induction cs generalizing before with
  | nil => simp [cutAt] at h
  | cons c cs ih =>
    rw [cutAt] at h
    split at h
    · next hp =>
      obtain ⟨rest, hrest⟩ := List.isPrefixOf_iff_prefix.1 hp
      simp only [Option.some.injEq, Prod.mk.injEq] at h
      obtain ⟨rfl, rfl⟩ := h
      rw [← hrest, List.drop_left, List.nil_append]
    · obtain ⟨⟨b, a⟩, hcut, heq⟩ := Option.map_eq_some_iff.1 h
      simp only [Prod.mk.injEq] at heq
      obtain ⟨rfl, rfl⟩ := heq
      rw [List.cons_append, ih hcut]

end TopDown.Text
