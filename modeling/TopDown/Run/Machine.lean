import TopDown.Grammar.Derivation
import TopDown.Parser
import TopDown.Run.Basic
import TopDown.Run.Options

/-!
# The automaton

The state of a run is the place in the tree where it stands, and the tokens that are left. The
place is the symbol to be dealt with next, inside a nest of frames: each frame is a nonterminal
that has been expanded, with the subtrees that are finished and the symbols that are still to be
dealt with after the current one. The current symbol and the waiting symbols of all frames,
innermost first, with the end mark below them are the stack of the automaton (`Focus.stack`).

A state determines the move to be made (`Parser.move`), and a move leads to the next state or ends
the run (`Parser.advance`). The history of a run lists its states with their moves.

## Main definitions

* `Frame`, `Focus`: the place in the tree
* `Focus.plug`, `Focus.leaveOut`, `Focus.expand`: how it moves on
* `Focus.tree`: the tree as far as it goes
* `State`, `Move`, `Parser.move`, `Parser.advance`, `Parser.history`

## Main results

* `Focus.stack_plug`, `Focus.stack_leaveOut`, `Focus.stack_expand`: what is left on the stack when
  the place moves on
* `Focus.tree_plug`: moving on loses no finished subtree
-/

namespace TopDown

/-- A nonterminal that has been expanded and is not finished: its finished subtrees, the latest
first, and the symbols that come after the one being dealt with. -/
structure Frame where
  left : Nat
  done : List Tree
  todo : List Nat
  deriving Repr

namespace Frame

/-- The subtree of a frame as far as it goes. -/
def close (g : Grammar) (f : Frame) : Tree :=
  g.nodeOf f.left f.done.reverse

/-- A frame with one more finished subtree. -/
def attach (t : Tree) (f : Frame) : Frame :=
  { f with done := t :: f.done }

end Frame

/-- A place in a tree that is being built: a symbol to be dealt with inside frames, the innermost
first, or the end of the tree. -/
inductive Focus where
  | awaiting (symbol : Nat) (frames : List Frame)
  | complete (tree : Tree)
  deriving Repr

namespace Focus

/-- The place after a finished subtree: frames that it completes are finished with it. -/
def plug (g : Grammar) (t : Tree) : List Frame → Focus
  | [] => complete t
  | f :: fs =>
    match f.todo with
    | [] => plug g ((f.attach t).close g) fs
    | symbol :: todo => awaiting symbol ({ f.attach t with todo := todo } :: fs)

/-- The place after a symbol for which there is no subtree. The root is there from the start and
stays. -/
def leaveOut (g : Grammar) (symbol : Nat) : List Frame → Focus
  | [] => complete (g.nodeOf symbol [])
  | f :: fs =>
    match f.todo with
    | [] => plug g (f.close g) fs
    | symbol :: todo => awaiting symbol ({ f with todo := todo } :: fs)

/-- The place at the beginning of an alternative of a symbol. -/
def expand (g : Grammar) (symbol : Nat) (frames : List Frame) : List Nat → Focus
  | [] => plug g (g.nodeOf symbol [Tree.empty]) frames
  | first :: todo => awaiting first (⟨symbol, [], todo⟩ :: frames)

/-- The symbols that are still to be dealt with, the next one first. The end mark is the last. -/
def stack (g : Grammar) : Focus → List Nat
  | awaiting symbol frames => symbol :: (frames.flatMap Frame.todo ++ [g.finish])
  | complete _ => [g.finish]

/-- A subtree with the frames around it. -/
def enclose (g : Grammar) (t : Tree) : List Frame → Tree
  | [] => t
  | f :: fs => enclose g ((f.attach t).close g) fs

/-- The tree as far as it goes: nothing stands for the symbols still to be dealt with, except that
the root is there from the start. -/
def tree (g : Grammar) : Focus → Tree
  | awaiting symbol [] => g.nodeOf symbol []
  | awaiting _ (f :: fs) => enclose g (f.close g) fs
  | complete t => t

variable (g : Grammar)

/-- A finished subtree leaves the symbols that were waiting. -/
theorem stack_plug (t : Tree) (fs : List Frame) :
    (plug g t fs).stack g = fs.flatMap Frame.todo ++ [g.finish] := by
  fun_induction plug g t fs with
  | case1 t => rfl
  | case2 t f fs htodo ih => simp [ih, htodo]
  | case3 t f fs symbol todo htodo => simp [stack, htodo]

/-- Without a subtree too, the symbols that were waiting are left. -/
theorem stack_leaveOut (symbol : Nat) (fs : List Frame) :
    (leaveOut g symbol fs).stack g = fs.flatMap Frame.todo ++ [g.finish] := by
  cases fs with
  | nil => rfl
  | cons f fs =>
    rw [leaveOut]
    split
    · next htodo => simp [stack_plug, htodo]
    · next next todo htodo => simp [stack, htodo]

/-- The symbols of an alternative come before those that were waiting. -/
theorem stack_expand (symbol : Nat) (fs : List Frame) (α : List Nat) :
    (expand g symbol fs α).stack g = α ++ (fs.flatMap Frame.todo ++ [g.finish]) := by
  cases α with
  | nil => exact stack_plug g _ fs
  | cons first todo => simp [expand, stack]

/-- A finished subtree is in the tree. -/
theorem tree_plug (t : Tree) (fs : List Frame) : (plug g t fs).tree g = enclose g t fs := by
  fun_induction plug g t fs with
  | case1 t => rfl
  | case2 t f fs htodo ih => rw [ih, enclose]
  | case3 t f fs symbol todo htodo => rfl

end Focus

/-- The state of a run: its place in the tree and the tokens that are left. -/
structure State where
  focus : Focus
  input : List String
  deriving Repr

/-- The token that comes next; after the last one, the end mark. -/
def State.token (s : State) : String :=
  s.input.headD Mark.finish

/-- What is done in one step. -/
inductive Move where
  | accept
  | shift
  | expand (number : Nat)
  | giveUp
  | passOver
  | fail (failure : Failure)
  deriving DecidableEq, Repr

/-- A state and what is done in it. -/
structure Event where
  state : State
  move : Move
  deriving Repr

namespace Parser

/-- The state before the first step. -/
def initial (p : Parser) (input : List String) : State :=
  ⟨.awaiting p.grammar.start [], input⟩

/-- The terminal that comes next. A token that is no terminal has none, and neither has a token
that looks like the end mark. -/
def nextTerminal? (p : Parser) : List String → Option Nat
  | [] => some p.grammar.finish
  | token :: _ => (p.grammar.findTerminal? token).filter (· != p.grammar.finish)

/-- The cell that says how to go on with a nonterminal. A token that is no terminal is to be
passed over. -/
def consult (p : Parser) (symbol : Nat) (input : List String) : Option Cell :=
  match p.nextTerminal? input with
  | some terminal => p.table.cell? symbol terminal
  | none => some .skip

/-- What to do with a nonterminal. -/
def moveAtNonterminal (p : Parser) (recovery : Recovery) (symbol : Nat) (s : State) : Move :=
  match p.consult symbol s.input, recovery with
  | some (.predict number _), _ => .expand number
  | some .sync, .panic => .giveUp
  | some .skip, .panic => .passOver
  | _, _ => .fail (.noProduction (p.grammar.name symbol) s.token)

/-- What to do in a state. -/
def move (p : Parser) (recovery : Recovery) (s : State) : Move :=
  match s.focus with
  | .complete _ =>
    match s.input with
    | [] => .accept
    | token :: _ => .fail (.mismatch (p.grammar.name p.grammar.finish) token)
  | .awaiting symbol _ =>
    if p.grammar.isTerminal symbol then
      if s.input.head? = some (p.grammar.name symbol) then .shift
      else .fail (.mismatch (p.grammar.name symbol) s.token)
    else
      match p.table.row? symbol with
      | some _ => p.moveAtNonterminal recovery symbol s
      | none => .fail (.unknownSymbol (p.grammar.name symbol))

/-- The state after a move; there is none after a move that ends the run. -/
def advance (p : Parser) (s : State) (m : Move) : Option State :=
  match s.focus, m with
  | .awaiting symbol frames, .shift =>
    some ⟨.plug p.grammar (p.grammar.leafOf symbol) frames, s.input.tail⟩
  | .awaiting symbol frames, .expand number =>
    some ⟨.expand p.grammar symbol frames (p.grammar.alternative symbol number), s.input⟩
  | .awaiting symbol frames, .giveUp => some ⟨.leaveOut p.grammar symbol frames, s.input⟩
  | .awaiting _ _, .passOver => some ⟨s.focus, s.input.tail⟩
  | _, _ => none

/-- The states of a run with their moves, of which at most `steps` are made from a state on; the
next one would exceed `limit`. -/
def historyFrom (p : Parser) (recovery : Recovery) (limit : Nat) : Nat → State → List Event
  | 0, s => [⟨s, .fail (.stepLimit limit)⟩]
  | steps + 1, s =>
    let m := p.move recovery s
    ⟨s, m⟩ ::
      match p.advance s m with
      | some next => p.historyFrom recovery limit steps next
      | none => []

/-- The states of a run with their moves. -/
def history (p : Parser) (input : List String) (options : RunOptions) : List Event :=
  p.historyFrom options.recovery options.maxSteps options.maxSteps (p.initial input)

end Parser

end TopDown
