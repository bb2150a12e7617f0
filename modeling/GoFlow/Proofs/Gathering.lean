import GoFlow.Parse.Machine
import GoFlow.Proofs.Tiling

/-! The parser loses no token and reads none twice. Whatever it does at a node, match, skip, insert,
wrap or give up, it reads a stretch of the tokens, each into a leaf of its own, and puts the leaves
behind those gathered before. -/

namespace GoFlow

theorem Tree.leavesAll_append (xs ys : List Tree) :
    leavesAll (xs ++ ys) = leavesAll xs ++ leavesAll ys := by
  induction xs with
  | nil => rfl
  | cons t ts ih => rw [List.cons_append, leavesAll, leavesAll, ih, List.append_assoc]

/-- The tokens in leaves, without the end of input; nothing was read for what was taken as read. -/
def Leaf.tokens (ls : List Leaf) : List Token :=
  (ls.filterMap Leaf.token?).filter fun t => t.kind != .eof

theorem Leaf.tokens_append (xs ys : List Leaf) : tokens (xs ++ ys) = tokens xs ++ tokens ys := by
  rw [tokens, List.filterMap_append, List.filter_append, tokens, tokens]

namespace Frame

variable (f : GoFlow.Frame)

def leaves : List Leaf := Tree.leavesAll f.children.reverse

theorem leaves_add (t : Tree) : (f.add t).leaves = f.leaves ++ t.leaves := by
  simp [leaves, add, Tree.leavesAll_append, Tree.leavesAll]

end Frame

namespace Machine

/-- The leaves of all categories being read, from the outside in. -/
def gathered (m : Machine) : List Leaf := m.outer.reverse.flatMap Frame.leaves ++ m.top.leaves

/-- The end of input closes the stream and the machine stands within it; every category but the
outermost says where to go on after it. -/
structure Sound (m : Machine) : Prop where
  closed : m.stream.kind (m.stream.size - 1) = .eof
  within : m.position < m.stream.size
  nested : (m.top :: m.outer).IsChain fun f _ => f.returnTo.isSome = true

/-- From one machine to another some tokens have been read, each into one leaf. -/
structure Gathers (m m' : Machine) : Prop where
  stream : m'.stream = m.stream
  sound : m.Sound → m'.Sound
  gathered : ∃ n ls, m'.position = m.position + n ∧ m'.gathered = m.gathered ++ ls ∧
    Leaf.tokens ls = (List.range' m.position n).map m.stream.token

variable {m m' m'' : Machine}

theorem nested_congr {f f' : GoFlow.Frame} {fs : List GoFlow.Frame}
    (place : f'.returnTo = f.returnTo)
    (nested : (f :: fs).IsChain fun f _ => f.returnTo.isSome = true) :
    (f' :: fs).IsChain fun f _ => f.returnTo.isSome = true := by
  cases fs with
  | nil => exact List.isChain_singleton _
  | cons g gs =>
      rw [List.isChain_cons_cons] at nested ⊢
      rwa [place]

namespace Gathers

theorem trans (first : m.Gathers m') (second : m'.Gathers m'') : m.Gathers m'' := by
  obtain ⟨n, ls, position, gathered, tokens⟩ := first.gathered
  obtain ⟨n', ls', position', gathered', tokens'⟩ := second.gathered
  have sound (start : m.Sound) : m''.Sound := second.sound (first.sound start)
  refine ⟨second.stream.trans first.stream, sound, n + n', ls ++ ls', ?_, ?_, ?_⟩
  · rw [position', position, Nat.add_assoc]
  · rw [gathered', gathered, List.append_assoc]
  · rw [Leaf.tokens_append, tokens, tokens', position, first.stream, ← List.map_append,
      List.range'_append_1]

theorem still (stream : m'.stream = m.stream) (position : m'.position = m.position)
    (children : m'.top.leaves = m.top.leaves) (place : m'.top.returnTo = m.top.returnTo)
    (outer : m'.outer = m.outer) : m.Gathers m' := by
  refine ⟨stream, fun sound => ⟨?_, ?_, ?_⟩, 0, [], position, ?_, rfl⟩
  · rw [stream]
    exact sound.closed
  · rw [stream, position]
    exact sound.within
  · rw [outer]
    exact nested_congr place sound.nested
  · rw [Machine.gathered, Machine.gathered, outer, children, List.append_nil]

theorem refl (m : Machine) : m.Gathers m := still rfl rfl rfl rfl rfl

theorem leaf (l : Leaf) (n : Nat) (stream : m'.stream = m.stream)
    (position : m'.position = m.position + n) (top : m'.top = m.top.add (.leaf l))
    (outer : m'.outer = m.outer) (within : m.Sound → m.position + n < m.stream.size)
    (tokens : Leaf.tokens [l] = (List.range' m.position n).map m.stream.token) : m.Gathers m' := by
  refine ⟨stream, fun sound => ⟨?_, ?_, ?_⟩, n, [l], position, ?_, tokens⟩
  · rw [stream]
    exact sound.closed
  · rw [stream, position]
    exact within sound
  · rw [outer, top]
    exact nested_congr (f := m.top) rfl sound.nested
  · rw [Machine.gathered, Machine.gathered, outer, top, Frame.leaves_add, List.append_assoc]
    rfl

end Gathers

/-- What a visit comes to: tokens have been read, and at the end the tree holds all that was
gathered. -/
inductive Visits (m : Machine) : Outcome → Prop
  | running {m' : Machine} (gathers : m.Gathers m') : Visits m (.running m')
  | done {m' : Machine} {t : Tree} (gathers : m.Gathers m') (leaves : t.leaves = m'.gathered) :
      Visits m (.done m' t)

theorem Gathers.visits {o : Outcome} (gathers : m.Gathers m') (visits : Visits m' o) :
    Visits m o := by
  cases visits with
  | running later => exact .running (gathers.trans later)
  | done later leaves => exact .done (gathers.trans later) leaves

end Machine

namespace Stream

end Stream

end GoFlow
