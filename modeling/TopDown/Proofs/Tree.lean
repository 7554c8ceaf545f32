import TopDown.Proofs.Text.Escape
import TopDown.Tree

/-!
# Trees in brackets

A tree that is drawn in brackets can be read off the drawing, but for the labels of its signs of the
empty string, which are not drawn. Labels may hold brackets, braces and backslashes, and the text of
another node; yet every label stands in braces of its own and ends there, it shows what kind of node
it belongs to, and what comes after it is another subtree or the bracket that closes the node.

## Main definitions

* `Tree.withoutSigns`: a tree without the labels of its signs of the empty string

## Main results

* `Tree.latexLabel_eq_iff`: what a drawn label says of its node
* `Tree.forest_append_inj`: where a drawing ends, and what it is a drawing of
* `Tree.latex_eq_iff`: a drawing determines the tree
-/

namespace TopDown.Tree

open Text.Tex (FitsCell braced_append_inj escapeChars escape_injective fitsCell_escape
  not_prefix_escapeChars)

/-! ## Labels -/

/-- The label of a node as far as it is drawn. -/
def drawnLabel : NodeKind → String → String
  | .epsilon, _ => ""
  | .terminal, label => label
  | .nonterminal, label => label

theorem fitsCell_latexLabel (kind : NodeKind) (label : String) :
    FitsCell (latexLabel kind label) := by
  cases kind with
  | nonterminal => exact fitsCell_escape label
  | terminal => exact .command (by decide) (fitsCell_escape label)
  | epsilon =>
    show FitsCell Text.Tex.epsilonFormula
    decide

/-- The label of a nonterminal is not the formula of the empty string. -/
theorem escape_ne_epsilonFormula (label : String) :
    Text.Tex.escape label ≠ Text.Tex.epsilonFormula := by
  intro heq
  have hdollar : ¬ ['$'] <+: escapeChars label.toList :=
    not_prefix_escapeChars (by decide) (by decide) _
  have hlist := congrArg String.toList heq
  rw [Text.Tex.escape, String.toList_ofList] at hlist
  rw [hlist] at hdollar
  exact hdollar (by decide)

/-- The label of a nonterminal is not that of a terminal. -/
theorem escape_ne_command (label argument : String) :
    Text.Tex.escape label ≠ Text.Tex.command "text" argument := by
  intro heq
  have hcommand : ¬ "\\text\x7b".toList <+: escapeChars label.toList :=
    not_prefix_escapeChars (by decide) (by decide) _
  have hlist := congrArg String.toList heq
  rw [Text.Tex.escape, String.toList_ofList] at hlist
  rw [hlist] at hcommand
  refine hcommand ⟨(argument ++ "\x7d").toList, ?_⟩
  simp [Text.Tex.command, Text.Tex.braced]

/-- The label of a terminal is not the formula of the empty string. -/
theorem command_ne_epsilonFormula (argument : String) :
    Text.Tex.command "text" argument ≠ Text.Tex.epsilonFormula := by
  intro heq
  have hlist := congrArg String.toList heq
  simp [Text.Tex.command, Text.Tex.epsilonFormula] at hlist

theorem command_injective (name : String) : Function.Injective (Text.Tex.command name) := by
  intro argument argument' h
  have hlist := congrArg String.toList h
  simp only [Text.Tex.command, Text.Tex.braced, String.toList_append, List.append_cancel_left_eq,
    List.append_cancel_right_eq] at hlist
  exact String.toList_inj.mp hlist

/-- **A drawn label** says of which kind its node is, and what its label is as far as it is
drawn. -/
theorem latexLabel_eq_iff {kind kind' : NodeKind} {label label' : String} :
    latexLabel kind label = latexLabel kind' label' ↔
      kind = kind' ∧ drawnLabel kind label = drawnLabel kind' label' := by
  cases kind <;> cases kind'
  case nonterminal.nonterminal =>
    simp [latexLabel, drawnLabel, escape_injective.eq_iff]
  case terminal.terminal =>
    simp [latexLabel, drawnLabel, (command_injective "text").eq_iff, escape_injective.eq_iff]
  case epsilon.epsilon => simp [latexLabel, drawnLabel]
  case nonterminal.terminal => simp [latexLabel, escape_ne_command]
  case terminal.nonterminal => simp [latexLabel, (escape_ne_command _ _).symm]
  case nonterminal.epsilon => simp [latexLabel, escape_ne_epsilonFormula]
  case epsilon.nonterminal => simp [latexLabel, (escape_ne_epsilonFormula _).symm]
  case terminal.epsilon => simp [latexLabel, command_ne_epsilonFormula]
  case epsilon.terminal => simp [latexLabel, (command_ne_epsilonFormula _).symm]

/-! ## Trees -/

mutual

/-- A tree without the labels of its signs of the empty string. -/
def withoutSigns : Tree → Tree
  | node kind label children => node kind (drawnLabel kind label) (withoutSignsAll children)

/-- Several trees without the labels of their signs of the empty string. -/
def withoutSignsAll : List Tree → List Tree
  | [] => []
  | t :: ts => t.withoutSigns :: withoutSignsAll ts

end

mutual

/-- The labels of signs of the empty string are not drawn. -/
theorem forest_withoutSigns : (t : Tree) → t.withoutSigns.forest = t.forest
  | node kind label children => by
    have hlabel : latexLabel kind (drawnLabel kind label) = latexLabel kind label := by
      cases kind <;> rfl
    rw [withoutSigns, forest, forest, hlabel, forestAll_withoutSignsAll children]

theorem forestAll_withoutSignsAll : (ts : List Tree) →
    forestAll (withoutSignsAll ts) = forestAll ts
  | [] => rfl
  | t :: ts => by
    rw [withoutSignsAll, forestAll, forestAll, forest_withoutSigns t, forestAll_withoutSignsAll ts]

end

/-- A drawing is a bracket, a label in braces, the drawings of the subtrees and a bracket. -/
theorem toList_forest_append (kind : NodeKind) (label : String) (children : List Tree)
    (rest : List Char) : (node kind label children).forest.toList ++ rest =
      '[' :: ((Text.Tex.braced (latexLabel kind label)).toList ++
        ((forestAll children).toList ++ ']' :: rest)) := by
  simp [forest]

theorem toList_forestAll_append (t : Tree) (ts : List Tree) (rest : List Char) :
    (forestAll (t :: ts)).toList ++ rest =
      ' ' :: (t.forest.toList ++ ((forestAll ts).toList ++ rest)) := by
  simp [forestAll]

mutual

/-- **A drawing ends where its bracket is closed**, and shows one tree, whatever comes after it. -/
theorem forest_append_inj : (t t' : Tree) → (rest rest' : List Char) →
    t.forest.toList ++ rest = t'.forest.toList ++ rest' →
    t.withoutSigns = t'.withoutSigns ∧ rest = rest'
  | node kind label children, node kind' label' children', rest, rest', h => by
    rw [toList_forest_append, toList_forest_append] at h
    obtain ⟨hlabel, hchildren⟩ := braced_append_inj (fitsCell_latexLabel kind label)
      (fitsCell_latexLabel kind' label') (List.cons.inj h).2
    obtain ⟨rfl, hdrawn⟩ := latexLabel_eq_iff.mp hlabel
    obtain ⟨hsubtrees, hrest⟩ := forestAll_append_inj children children' rest rest' hchildren
    exact ⟨by rw [withoutSigns, withoutSigns, hdrawn, hsubtrees], hrest⟩

/-- Drawings of subtrees end where the bracket of their node is closed. -/
theorem forestAll_append_inj : (ts ts' : List Tree) → (rest rest' : List Char) →
    (forestAll ts).toList ++ ']' :: rest = (forestAll ts').toList ++ ']' :: rest' →
    withoutSignsAll ts = withoutSignsAll ts' ∧ rest = rest'
  | [], [], _, _, h => ⟨rfl, (List.cons.inj h).2⟩
  | [], t' :: ts', rest, rest', h => by
    rw [toList_forestAll_append] at h
    cases (List.cons.inj h).1
  | t :: ts, [], rest, rest', h => by
    rw [toList_forestAll_append] at h
    cases (List.cons.inj h).1
  | t :: ts, t' :: ts', rest, rest', h => by
    rw [toList_forestAll_append, toList_forestAll_append] at h
    obtain ⟨htree, hmore⟩ := forest_append_inj t t' _ _ (List.cons.inj h).2
    obtain ⟨htrees, hrest⟩ := forestAll_append_inj ts ts' rest rest' hmore
    exact ⟨by rw [withoutSignsAll, withoutSignsAll, htree, htrees], hrest⟩

end

/-- **A drawing determines the tree**, but for the labels of signs of the empty string, which are
not drawn. Whatever the labels are, none of them can be taken for brackets, for another node or for
the label of a node of another kind. -/
theorem latex_eq_iff (t t' : Tree) : t.latex = t'.latex ↔ t.withoutSigns = t'.withoutSigns := by
  constructor
  · intro h
    have hlist := congrArg String.toList h
    simp only [latex, String.append_assoc, String.toList_append,
      List.append_cancel_left_eq] at hlist
    exact (forest_append_inj t t' _ _ hlist).1
  · intro h
    rw [latex, latex, ← forest_withoutSigns t, ← forest_withoutSigns t', h]

end TopDown.Tree
