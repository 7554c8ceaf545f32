import TopDown.Proofs.Table.Lookup
import TopDown.Run.Machine

/-!
# Trees in arenas

A program that makes a tree does not hold it as a tree. It keeps a list of nodes, an arena, in which
the children of a node are named by their places: a new node goes to the end of the list, and its
place is added to the children of its parent. Not every arena is a tree, for a place that is named
may be outside of the list or lead back to where it is named.

The nodes of a tree, each before those below it, are such an arena (`Tree.arena`), and the tree can
be read back from it. The symbols of an alternative are dealt with from left to right, so a tree
that is being made grows at the end of this list: the arena is that of the tree as far as it goes
(`Arena.attach?_enclose`), and no place in it ever changes.

## Main definitions

* `ArenaNode`, `Arena.attach?`, `Arena.assemble?`: arenas, with every lookup that can fail
* `Tree.arena`: the nodes of a tree in order
* `Focus.place`: where the next node comes

## Main results

* `Arena.assemble?_arena`: a tree is read back from its arena
* `Focus.arena_enclose`: the arena of a tree with frames around it
* `Arena.attach?_enclose`: a node is attached at the place where a tree is being made
-/

namespace TopDown

/-- A node in a list of nodes: its children are named by their places. -/
structure ArenaNode where
  kind : NodeKind
  label : String
  children : List Nat
  deriving DecidableEq, Repr

namespace Arena

/-- A new node at the end of an arena and among the children of its parent, and its place. -/
def attach? (arena : Array ArenaNode) (parent : Nat) (kind : NodeKind) (label : String) :
    Option (Array ArenaNode × Nat) := do
  let place := arena.size
  let arena := arena.push ⟨kind, label, []⟩
  let node ← arena[parent]?
  let arena ← replace? arena parent { node with children := node.children ++ [place] }
  return (arena, place)

/-- The tree below a place in an arena, if it is no deeper than a bound. -/
def assembleTo? (arena : Array ArenaNode) : Nat → Nat → Option Tree
  | 0, _ => none
  | depth + 1, place => do
    let node ← arena[place]?
    let children ← node.children.mapM (assembleTo? arena depth)
    return .node node.kind node.label children

/-- The tree below a place in an arena. A tree that is deeper than the arena has nodes would come
back to where it has been and never end. -/
def assemble? (arena : Array ArenaNode) (place : Nat) : Option Tree :=
  assembleTo? arena arena.size place

end Arena

/-! ## The arena of a tree -/

namespace Tree

mutual

/-- The number of nodes of a tree. -/
def size : Tree → Nat
  | node _ _ children => sizeAll children + 1

/-- The number of nodes of several trees. -/
def sizeAll : List Tree → Nat
  | [] => 0
  | t :: ts => t.size + sizeAll ts

end

/-- The places of the roots of trees that stand one after the other. -/
def places (base : Nat) : List Tree → List Nat
  | [] => []
  | t :: ts => base :: places (base + t.size) ts

mutual

/-- The nodes of a tree from a place on, each before those below it. -/
def arena (base : Nat) : Tree → List ArenaNode
  | node kind label children =>
    ⟨kind, label, places (base + 1) children⟩ :: arenaAll (base + 1) children

/-- The nodes of several trees from a place on. -/
def arenaAll (base : Nat) : List Tree → List ArenaNode
  | [] => []
  | t :: ts => t.arena base ++ arenaAll (base + t.size) ts

end

mutual

/-- An arena has as many nodes as the tree. -/
theorem length_arena (base : Nat) : (t : Tree) → (t.arena base).length = t.size
  | node kind label children => by
    rw [arena, List.length_cons, length_arenaAll (base + 1) children, size]

theorem length_arenaAll (base : Nat) : (ts : List Tree) → (arenaAll base ts).length = sizeAll ts
  | [] => rfl
  | t :: ts => by
    rw [arenaAll, List.length_append, length_arena base t, length_arenaAll (base + t.size) ts,
      sizeAll]

end

theorem sizeAll_append (ts us : List Tree) : sizeAll (ts ++ us) = sizeAll ts + sizeAll us := by
  induction ts with
  | nil => rw [List.nil_append, sizeAll, Nat.zero_add]
  | cons t ts ih => rw [List.cons_append, sizeAll, ih, sizeAll, Nat.add_assoc]

theorem sizeAll_reverse (ts : List Tree) : sizeAll ts.reverse = sizeAll ts := by
  induction ts with
  | nil => rfl
  | cons t ts ih =>
    rw [List.reverse_cons, sizeAll_append, ih, sizeAll, sizeAll, sizeAll, Nat.add_zero,
      Nat.add_comm]

theorem places_append (base : Nat) (ts us : List Tree) :
    places base (ts ++ us) = places base ts ++ places (base + sizeAll ts) us := by
  induction ts generalizing base with
  | nil => rfl
  | cons t ts ih =>
    rw [List.cons_append, places, ih, places, sizeAll, Nat.add_assoc, List.cons_append]

theorem arenaAll_append (base : Nat) (ts us : List Tree) :
    arenaAll base (ts ++ us) = arenaAll base ts ++ arenaAll (base + sizeAll ts) us := by
  induction ts generalizing base with
  | nil => rfl
  | cons t ts ih =>
    rw [List.cons_append, arenaAll, ih, arenaAll, sizeAll, Nat.add_assoc, List.append_assoc]

end Tree

namespace Arena

open TopDown.Tree (places arenaAll)

mutual

/-- A tree is read back whatever nodes come before and after it. -/
theorem assembleTo?_append : (t : Tree) → (before after : List ArenaNode) → {depth : Nat} →
    t.size ≤ depth →
    assembleTo? (before ++ (t.arena before.length ++ after)).toArray depth before.length = some t
  | .node kind label children, before, after, 0, hdepth => by
    rw [Tree.size] at hdepth
    exact absurd hdepth (Nat.not_succ_le_zero _)
  | .node kind label children, before, after, depth + 1, hdepth => by
    rw [Tree.size] at hdepth
    have hroot : (before ++ ((Tree.node kind label children).arena before.length ++
        after)).toArray[before.length]? =
          some ⟨kind, label, places (before.length + 1) children⟩ := by
      simp [Tree.arena]
    have hchildren := mapM_assembleTo?_append children
      (before ++ [⟨kind, label, places (before.length + 1) children⟩]) after
      (Nat.le_of_succ_le_succ hdepth)
    rw [List.length_append, List.length_singleton, List.append_assoc, List.singleton_append,
      ← List.cons_append] at hchildren
    rw [assembleTo?, hroot]
    dsimp only [Option.bind_eq_bind, Option.bind_some]
    rw [Tree.arena, hchildren]
    rfl

theorem mapM_assembleTo?_append : (ts : List Tree) → (before after : List ArenaNode) →
    {depth : Nat} → Tree.sizeAll ts ≤ depth →
    (places before.length ts).mapM
      (assembleTo? (before ++ (arenaAll before.length ts ++ after)).toArray depth) = some ts
  | [], _, _, _, _ => rfl
  | t :: ts, before, after, depth, hdepth => by
    obtain ⟨hsize, hsizeAll⟩ : t.size ≤ depth ∧ Tree.sizeAll ts ≤ depth := by
      rw [Tree.sizeAll] at hdepth
      omega
    have hfirst := assembleTo?_append t before (arenaAll (before.length + t.size) ts ++ after) hsize
    have hrest := mapM_assembleTo?_append ts (before ++ t.arena before.length) after hsizeAll
    rw [List.length_append, Tree.length_arena, List.append_assoc] at hrest
    rw [places, List.mapM_cons, arenaAll, List.append_assoc, hfirst]
    dsimp only [Option.bind_eq_bind, Option.bind_some]
    rw [hrest]
    rfl

end

/-- **A tree is read back from its arena.** -/
theorem assemble?_arena (t : Tree) : assemble? (t.arena 0).toArray 0 = some t := by
  have hdepth : t.size ≤ (t.arena 0).toArray.size := by
    rw [List.size_toArray, Tree.length_arena]
  simpa [assemble?] using assembleTo?_append t [] [] hdepth

end Arena

/-! ## The arena of a tree that is being made -/

namespace Focus

variable {g : Grammar}

/-- The place of the next node inside frames: after the innermost frame and what is finished
in it. -/
def place : List Frame → Nat
  | [] => 0
  | f :: fs => place fs + 1 + Tree.sizeAll f.done

/-- The nodes of frames and of what is finished in them. The innermost frame has some more
children. -/
def arenaAround (g : Grammar) (inner : List Nat) : List Frame → List ArenaNode
  | [] => []
  | f :: fs =>
    arenaAround g [place fs] fs ++
      ⟨.nonterminal, g.name f.left, Tree.places (place fs + 1) f.done.reverse ++ inner⟩ ::
        Tree.arenaAll (place fs + 1) f.done.reverse

theorem length_arenaAround (inner : List Nat) (fs : List Frame) :
    (arenaAround g inner fs).length = place fs := by
  induction fs generalizing inner with
  | nil => rfl
  | cons f fs ih =>
    rw [arenaAround, List.length_append, ih, List.length_cons, Tree.length_arenaAll,
      Tree.sizeAll_reverse, place]
    omega

/-- **The arena of a tree with frames around it**: the frames come first, and the tree is the last
child of the innermost. -/
theorem arena_enclose (t : Tree) (fs : List Frame) :
    (enclose g t fs).arena 0 = arenaAround g [place fs] fs ++ t.arena (place fs) := by
  induction fs generalizing t with
  | nil => rfl
  | cons f fs ih =>
    rw [enclose, ih, Frame.close, Frame.attach, Grammar.nodeOf, Tree.arena, List.reverse_cons,
      Tree.places_append, Tree.arenaAll_append, Tree.sizeAll_reverse, arenaAround, place]
    simp [Tree.places, Tree.arenaAll]

/-- The arena of a frame as far as it goes, with the frames around it. -/
theorem arena_enclose_close (f : Frame) (fs : List Frame) :
    (enclose g (f.close g) fs).arena 0 = arenaAround g [] (f :: fs) := by
  rw [arena_enclose, Frame.close, Grammar.nodeOf, Tree.arena, arenaAround, List.append_nil]

end Focus

namespace Arena

/-- What attaching a node changes: the children of its parent, and the end of the arena. -/
theorem attach?_eq {before after : List ArenaNode} {parent : ArenaNode} {place : Nat}
    (hplace : (before ++ parent :: after).length = place) (kind : NodeKind) (label : String) :
    attach? (before ++ parent :: after).toArray before.length kind label =
      some ((before ++ { parent with children := parent.children ++ [place] } ::
        (after ++ [ArenaNode.mk kind label []])).toArray, place) := by
  have hpush : (before ++ parent :: after).toArray.push (.mk kind label []) =
      (before ++ parent :: (after ++ [ArenaNode.mk kind label []])).toArray := by simp
  rw [attach?, hpush, List.size_toArray, hplace]
  generalize after ++ [ArenaNode.mk kind label []] = after
  have hparent : (before ++ parent :: after).toArray[before.length]? = some parent := by simp
  have hlt : before.length < (before ++ parent :: after).toArray.size := by simp
  dsimp only [Option.bind_eq_bind]
  rw [hparent, Option.bind_some, replace?_eq hlt, List.setIfInBounds_toArray]
  simp

/-- **A node is attached** at the place where a tree is being made: it becomes the last child of the
innermost frame. -/
theorem attach?_enclose (g : Grammar) (f : Frame) (fs : List Frame) (kind : NodeKind)
    (label : String) :
    attach? ((Focus.enclose g (f.close g) fs).arena 0).toArray (Focus.place fs) kind label =
      some (((Focus.enclose g (.node kind label []) (f :: fs)).arena 0).toArray,
        Focus.place (f :: fs)) := by
  have hplace : (Focus.arenaAround g [] (f :: fs)).length = Focus.place (f :: fs) :=
    Focus.length_arenaAround [] (f :: fs)
  rw [Focus.arenaAround] at hplace
  have hattach := attach?_eq hplace kind label
  rw [Focus.length_arenaAround] at hattach
  rw [Focus.arena_enclose_close, Focus.arena_enclose, Focus.arenaAround, hattach,
    Focus.arenaAround]
  simp [Tree.arena, Tree.places, Tree.arenaAll]

end Arena

end TopDown
