import GoFlow.Proofs.Structured

/-! How many firsts are on their stack while a body is drawn. A loop and each of the two branches of
an if statement put one there; an if statement takes two off, also where it has one branch only. -/

namespace GoFlow

namespace Body

/-- A run stands in the block itself, not only in the statements in it. -/
def hasRun : Body → Bool
  | done => false
  | run _ _ => true
  | branch _ _ _ rest => rest.hasRun
  | loop _ _ rest => rest.hasRun

def endsInRun : Body → Bool
  | done => false
  | run _ done => true
  | run _ rest => rest.endsInRun
  | branch _ _ _ rest => rest.endsInRun
  | loop _ _ rest => rest.endsInRun

end Body

mutual

/-- A run stands in each block of the statements. -/
def Body.Filled : Body → Prop
  | .done => True
  | .run _ rest => rest.Filled
  | .branch _ yes no rest => (yes.hasRun = true ∧ yes.Filled) ∧ no.Filled ∧ rest.Filled
  | .loop _ body rest => (body.hasRun = true ∧ body.Filled) ∧ rest.Filled

def Otherwise.Filled : Otherwise → Prop
  | .nothing => True
  | .block body => body.hasRun = true ∧ body.Filled
  | .elseIf _ yes no => (yes.hasRun = true ∧ yes.Filled) ∧ no.Filled

end

mutual

/-- Each else block ends in a run. -/
def Body.Closed : Body → Prop
  | .done => True
  | .run _ rest => rest.Closed
  | .branch _ yes no rest => yes.Closed ∧ no.Closed ∧ rest.Closed
  | .loop _ body rest => body.Closed ∧ rest.Closed

def Otherwise.Closed : Otherwise → Prop
  | .nothing => True
  | .block body => body.endsInRun = true ∧ body.Closed
  | .elseIf _ yes no => yes.Closed ∧ no.Closed

end

def takeTwo (n : Nat) : Option Nat := if 2 ≤ n then some (n - 2) else none

mutual

/-- How many firsts there are after the body has been drawn, unless they run out. -/
def Body.balance : Body → Nat → Option Nat
  | .done, n => some n
  | .run _ rest, n => rest.balance n
  | .branch _ yes no rest, n => do
      let n ← yes.balance (n + 1)
      let n ← no.balance n
      let n ← takeTwo n
      rest.balance n
  | .loop _ body rest, n => do
      let n ← body.balance (n + 1)
      -- A loop takes its first off and puts it back.
      if n = 0 then none else rest.balance n

def Otherwise.balance : Otherwise → Nat → Option Nat
  | .nothing, n => some n
  | .block body, n => body.balance (n + 1)
  | .elseIf _ yes no, n => do
      let n ← yes.balance (n + 1)
      let n ← no.balance n
      takeTwo n

end

def balanceIf (yes : Body) (no : Otherwise) (n : Nat) : Option Nat :=
  (yes.balance (n + 1)).bind fun n => (no.balance n).bind takeTwo

theorem Body.balance_branch (condition : String) (yes rest : Body) (no : Otherwise) (n : Nat) :
    (Body.branch condition yes no rest).balance n = (balanceIf yes no n).bind rest.balance := by
  simp only [Body.balance, balanceIf, Option.bind_eq_bind, Option.bind_assoc]

theorem Otherwise.balance_elseIf (condition : String) (yes : Body) (no : Otherwise) (n : Nat) :
    (Otherwise.elseIf condition yes no).balance n = balanceIf yes no n := by
  simp only [Otherwise.balance, balanceIf, Option.bind_eq_bind]

/-- The functions one after another: what is left on the stack stays there. -/
def balanceAll : List Function → Nat → Option Nat
  | [], n => some n
  | f :: fs, n => (f.body.balance n).bind (balanceAll fs)

namespace Sketch

/-- The nodes have rising numbers up to the count. The firsts are some of them, the newest on
top. -/
structure Tidy (d : Sketch) : Prop where
  rising : d.nodes.Pairwise fun s t => s.number < t.number
  bounded : ∀ s ∈ d.nodes, s.number ≤ d.count
  falling : d.firsts.Pairwise fun s t => t.number < s.number
  made : ∀ s ∈ d.firsts, s ∈ d.nodes

/-- The node made last is newer than every first, and stands for something in a body. -/
def Fresh (d : Sketch) : Prop :=
  ∃ n, d.nodes.getLast? = some n ∧ n.role ≠ .entry ∧ ∀ s ∈ d.firsts, s.number < n.number

/-- The next node made, or the one made last, is newer than every first. -/
def Current (d : Sketch) : Prop := d.Fresh ∨ d.held ≠ ""

variable {d d' : Sketch}

theorem Tidy.firsts_le (tidy : d.Tidy) : ∀ s ∈ d.firsts, s.number ≤ d.count :=
  fun s hs => tidy.bounded s (tidy.made s hs)

theorem Tidy.mono (tidy : d.Tidy) (nodes : d'.nodes = d.nodes) (count : d.count ≤ d'.count)
    (firsts : d'.firsts.Sublist d.firsts) : d'.Tidy where
  rising := nodes ▸ tidy.rising
  bounded := fun s hs => (tidy.bounded s (nodes ▸ hs)).trans count
  falling := tidy.falling.sublist firsts
  made := fun s hs => nodes ▸ tidy.made s (firsts.subset hs)

theorem Fresh.mono (fresh : d.Fresh) (nodes : d'.nodes = d.nodes)
    (firsts : d'.firsts.Sublist d.firsts) : d'.Fresh := by
  obtain ⟨n, newest, statement, newer⟩ := fresh
  exact ⟨n, nodes ▸ newest, statement, fun s hs => newer s (firsts.subset hs)⟩

theorem Tidy.declare (tidy : d.Tidy) (role : Role) (text shape : String) :
    (d.declare role text shape).Tidy where
  rising := by
    refine List.pairwise_append.mpr ⟨tidy.rising, List.pairwise_singleton _ _, fun s hs t ht => ?_⟩
    cases List.mem_singleton.mp ht
    exact Nat.lt_succ_of_le (tidy.bounded s hs)
  bounded := by
    intro s hs
    rcases List.mem_append.mp hs with old | new
    · exact (tidy.bounded s old).trans (Nat.le_succ _)
    · cases List.mem_singleton.mp new
      exact le_rfl
  falling := tidy.falling
  made := fun s hs => List.mem_append_left _ (tidy.made s hs)

/-- Making a node leaves the firsts as they are, and the node is the newest. -/
theorem Tidy.place {role : Role} {text shape : String} (tidy : d.Tidy)
    (placed : d.place role text shape = some d') :
    d'.Tidy ∧ d'.firsts = d.firsts ∧ d'.held = d.held ∧ d'.count = d.count + 1 ∧
      d'.nodes.getLast? = some ⟨role, d.count + 1⟩ := by
  obtain ⟨lasts, ends, strokes, rfl⟩ := place_frame placed
  exact ⟨(tidy.declare role text shape).mono rfl le_rfl (.refl _), rfl, rfl,
    rfl, by simp [Sketch.declare]⟩

theorem Tidy.fresh_place {role : Role} {text shape : String} (tidy : d.Tidy)
    (placed : d.place role text shape = some d') (statement : role ≠ .entry) : d'.Fresh := by
  obtain ⟨_, firsts, _, _, newest⟩ := tidy.place placed
  refine ⟨_, newest, statement, fun s hs => ?_⟩
  rw [firsts] at hs
  exact Nat.lt_succ_of_le (tidy.firsts_le s hs)

theorem flush_count (flushed : d.flush = some d') : d.count ≤ d'.count := by
  unfold Sketch.flush at flushed
  split at flushed
  · cases flushed
    exact le_rfl
  · obtain ⟨d₁, placed, rfl⟩ := Option.map_eq_some_iff.mp flushed
    obtain ⟨_, _, _, rfl⟩ := place_frame placed
    exact Nat.le_succ _

theorem Tidy.flush (tidy : d.Tidy) (flushed : d.flush = some d') :
    d'.Tidy ∧ d'.firsts = d.firsts ∧ d'.held = "" ∧ (d.Current → d'.Fresh) := by
  unfold Sketch.flush at flushed
  split at flushed
  · rename_i empty
    cases flushed
    exact ⟨tidy, rfl, empty, fun current => current.resolve_right (not_not_intro empty)⟩
  · obtain ⟨d₁, placed, rfl⟩ := Option.map_eq_some_iff.mp flushed
    obtain ⟨tidy₁, firsts, _⟩ := tidy.place placed
    exact ⟨tidy₁.mono rfl le_rfl (.refl _), firsts, rfl,
      fun _ => (tidy.fresh_place placed d.blockRole_plain.2.2.1).mono rfl (.refl _)⟩

theorem Tidy.leaveBlock (tidy : d.Tidy) (left : d.leaveBlock = some d') :
    d'.Tidy ∧ d'.firsts = d.firsts ∧ d'.held = "" ∧ (d.Current → d'.Fresh) :=
  have lower : ({ d with level := d.level - 1 } : Sketch).Tidy := tidy.mono rfl le_rfl (.refl _)
  lower.flush left

theorem addTo_newer {s : Spot} {firsts : List Spot} (newer : ∀ t ∈ firsts, t.number < s.number) :
    s.addTo firsts = s :: firsts := by
  cases firsts with
  | nil => rfl
  | cons t ts =>
      have other : t ≠ s := by
        rintro rfl
        exact Nat.lt_irrefl _ (newer t List.mem_cons_self)
      rw [Spot.addTo, if_neg other]

/-- An else block and a loop put the node made last on top of the firsts. -/
theorem Tidy.enterBlock {n : Spot} (tidy : d.Tidy) (newest : d.nodes.getLast? = some n)
    (newer : ∀ s ∈ d.firsts, s.number < n.number) (statement : n.role ≠ .entry)
    (entered : d.enterBlock = some d') :
    d'.Tidy ∧ d'.firsts = n :: d.firsts ∧ d'.held = d.held ∧ d'.nodes = d.nodes := by
  rw [Sketch.enterBlock, newest, Option.map_some, if_neg statement, addTo_newer newer] at entered
  cases entered
  refine ⟨⟨tidy.rising, tidy.bounded, List.pairwise_cons.mpr ⟨newer, tidy.falling⟩, ?_⟩,
    rfl, rfl, rfl⟩
  exact List.forall_mem_cons.mpr ⟨List.mem_of_getLast? newest, tidy.made⟩

theorem Tidy.enterThen {condition : String} {kind : Branches} (tidy : d.Tidy)
    (entered : (d.enterIf condition kind).bind Sketch.enterBlock = some d') :
    d'.Tidy ∧ d'.held = "" ∧ ∃ c, d'.firsts = c :: d.firsts ∧ d'.nodes.getLast? = some c ∧
      d.count < c.number := by
  obtain ⟨d₃, enteredIf, enteredBlock⟩ := Option.bind_eq_some_iff.mp entered
  obtain ⟨d₁, flushed, enteredIf⟩ := Option.bind_eq_some_iff.mp enteredIf
  obtain ⟨d₂, placed, enteredIf⟩ := Option.bind_eq_some_iff.mp enteredIf
  cases enteredIf
  have grown := flush_count flushed
  obtain ⟨tidy₁, firsts₁, held₁, _⟩ := tidy.flush flushed
  obtain ⟨tidy₂, firsts₂, held₂, count, newest⟩ := tidy₁.place placed
  have newer : ∀ s ∈ d₂.firsts, s.number < d₂.count := by
    intro s hs
    rw [firsts₂] at hs
    have := tidy₁.firsts_le s hs
    omega
  rw [← count] at newest
  simp only [Sketch.enterBlock, newest, Option.map_some,
    addTo_newer (s := ⟨.condition, d₂.count⟩) newer] at enteredBlock
  cases enteredBlock
  refine ⟨⟨tidy₂.rising, tidy₂.bounded, ?_, ?_⟩, held₂.trans held₁, ⟨.condition, d₂.count⟩, ?_,
    newest, ?_⟩
  · simpa [Spot.addTo] using ⟨newer, tidy₂.falling⟩
  · simpa [Spot.addTo] using ⟨List.mem_of_getLast? newest, tidy₂.made⟩
  · simp [Spot.addTo, firsts₂, firsts₁]
  · change d.count < d₂.count
    omega

/-- The edges of both branches begin at the second of the firsts. -/
theorem leaveIfElse_some (left : d.leaveIfElse = some d') :
    ∃ n c rest lasts ends first second, d.firsts = n :: c :: rest ∧
      d' = { d with
        firsts := rest, lasts, ends
        strokes := d.strokes ++
          [.edge (.south c) first [("label", "true"), ("headport", "n"), ("tailport", "w")]] ++
          [.edge (.south c) second [("label", "false"), ("headport", "n"), ("tailport", "e")]]
          } := by
  obtain ⟨⟨n, d₁⟩, popped, left⟩ := Option.bind_eq_some_iff.mp left
  obtain ⟨_, firsts, rfl⟩ := popFirst_eq_some.mp popped
  obtain ⟨second, _, left⟩ := Option.bind_eq_some_iff.mp left
  obtain ⟨⟨no, d₂⟩, popped, left⟩ := Option.bind_eq_some_iff.mp left
  obtain ⟨_, _, rfl⟩ := popLast_eq_some.mp popped
  obtain ⟨⟨c, d₃⟩, popped, left⟩ := Option.bind_eq_some_iff.mp left
  obtain ⟨rest, rfl, rfl⟩ := popFirst_eq_some.mp popped
  obtain ⟨first, _, left⟩ := Option.bind_eq_some_iff.mp left
  obtain ⟨⟨yes, d₄⟩, popped, left⟩ := Option.bind_eq_some_iff.mp left
  obtain ⟨_, _, rfl⟩ := popLast_eq_some.mp popped
  obtain ⟨⟨_, d₅⟩, popped, left⟩ := Option.bind_eq_some_iff.mp left
  obtain ⟨_, _, rfl⟩ := popEnd_eq_some.mp popped
  obtain ⟨⟨_, d₆⟩, popped, left⟩ := Option.bind_eq_some_iff.mp left
  obtain ⟨_, _, rfl⟩ := popEnd_eq_some.mp popped
  obtain ⟨⟨_, d₇⟩, popped, left⟩ := Option.bind_eq_some_iff.mp left
  obtain ⟨_, _, rfl⟩ := popEnd_eq_some.mp popped
  cases left
  exact ⟨n, c, rest, _, _, first, second, firsts, rfl⟩

theorem leaveIfThen_some (left : d.leaveIfThen = some d') :
    ∃ n c rest lasts ends strokes, d.firsts = n :: c :: rest ∧
      d' = { d with firsts := rest, lasts, ends, strokes } := by
  obtain ⟨⟨n, d₁⟩, popped, left⟩ := Option.bind_eq_some_iff.mp left
  obtain ⟨_, firsts, rfl⟩ := popFirst_eq_some.mp popped
  obtain ⟨_, _, left⟩ := Option.bind_eq_some_iff.mp left
  obtain ⟨⟨c, d₂⟩, popped, left⟩ := Option.bind_eq_some_iff.mp left
  obtain ⟨rest, rfl, rfl⟩ := popFirst_eq_some.mp popped
  obtain ⟨_, _, left⟩ := Option.bind_eq_some_iff.mp left
  obtain ⟨⟨yes, d₃⟩, popped, left⟩ := Option.bind_eq_some_iff.mp left
  obtain ⟨_, _, rfl⟩ := popLast_eq_some.mp popped
  obtain ⟨⟨_, d₄⟩, popped, left⟩ := Option.bind_eq_some_iff.mp left
  obtain ⟨_, _, rfl⟩ := popEnd_eq_some.mp popped
  obtain ⟨⟨_, d₅⟩, popped, left⟩ := Option.bind_eq_some_iff.mp left
  obtain ⟨_, _, rfl⟩ := popEnd_eq_some.mp popped
  cases left
  exact ⟨n, c, rest, _, _, _, firsts, rfl⟩

theorem popBranch_some (popped : d.popBranch = some d') : ∃ branches, d' = { d with branches } := by
  unfold popBranch at popped
  split at popped
  · cases popped
    exact ⟨_, rfl⟩
  · cases popped

theorem leaveIf_some {kind : Branches} (left : d.leaveIf kind = some d') :
    ∃ n c rest, d.firsts = n :: c :: rest ∧ d'.firsts = rest ∧ d'.nodes = d.nodes ∧
      d'.count = d.count ∧
      d'.held = d.held := by
  cases kind with
  | thenOnly =>
      obtain ⟨d₁, left, h⟩ := Option.bind_eq_some_iff.mp left
      obtain ⟨n, c, rest, _, _, _, firsts, rfl⟩ := leaveIfThen_some left
      obtain ⟨_, rfl⟩ := popBranch_some h
      exact ⟨n, c, rest, firsts, rfl, rfl, rfl, rfl⟩
  | thenElse =>
      obtain ⟨d₁, left, h⟩ := Option.bind_eq_some_iff.mp left
      obtain ⟨n, c, rest, _, _, _, _, firsts, rfl⟩ := leaveIfElse_some left
      obtain ⟨_, rfl⟩ := popBranch_some h
      exact ⟨n, c, rest, firsts, rfl, rfl, rfl, rfl⟩

/-- The last edge leads back to the loop; those before it have no attributes. -/
theorem closeLoop_frame (last : Tip) (s : Spot) (d : Sketch) :
    ∃ count between tail, d.count ≤ count ∧ (∀ x ∈ between, ∃ p t, x = .edge p t []) ∧
      closeLoop last s d = { d with
        count
        strokes := d.strokes ++
          (between ++ [.edge tail s [("headport", "w"), ("tailport", "w")]]) } := by
  cases last with
  | port p => exact ⟨_, [], p, le_rfl, nofun, rfl⟩
  | group xs =>
      refine ⟨_, (Tip.group xs).ports.map fun p => .edge p ⟨.dummy, d.count + 1⟩ [],
        .south ⟨.dummy, d.count + 1⟩, Nat.le_succ _, ?_, ?_⟩
      · intro x hx
        obtain ⟨p, _, rfl⟩ := List.mem_map.mp hx
        exact ⟨p, _, rfl⟩
      · simp only [closeLoop, List.append_assoc]

/-- The edge to the body of a loop begins at the first of the firsts, and the last edge leads back
there. -/
theorem leaveFor_some (left : d.leaveFor = some d') :
    ∃ s rest, d.firsts = s :: rest ∧ d'.firsts = s.addTo rest ∧ d'.nodes = d.nodes ∧
      d.count ≤ d'.count ∧
      d'.held = d.held ∧ ∃ first between tail, (∀ x ∈ between, ∃ p t, x = .edge p t []) ∧
        d'.strokes = d.strokes ++ Stroke.edge (.south s) first [] ::
          (between ++ [Stroke.edge tail s [("headport", "w"), ("tailport", "w")]]) := by
  simp only [leaveFor, Option.bind_eq_bind, Option.bind_eq_some_iff, Prod.exists, popFirst_eq_some,
    popLast_eq_some, popEnd_eq_some, Option.pure_def, Option.some.injEq] at left
  obtain ⟨d₁, popped, s, d₂, ⟨rest, firsts, hd₂⟩, first, _, last, d₃, ⟨lasts, _, hd₃⟩, _, d₄,
    ⟨ends, _, hd₄⟩, rfl⟩ := left
  have frame : ∃ loops, d₁ = { d with loops } := by
    unfold popLoop at popped
    split at popped
    · cases popped
      exact ⟨_, rfl⟩
    · cases popped
  obtain ⟨_, rfl⟩ := frame
  obtain ⟨count, between, tail, le, plain, closed⟩ := closeLoop_frame last s { d₃ with
    lasts := d₃.lasts.erase last
    strokes := d₃.strokes ++ [.edge (.south s) first []] }
  rw [closed] at hd₄
  subst hd₄ hd₃ hd₂
  exact ⟨s, rest, firsts, rfl, rfl, le, rfl, first, between, tail, plain, by simp⟩

theorem Tidy.leaveIf {kind : Branches} (tidy : d.Tidy) (fresh : d.Fresh)
    (left : d.leaveIf kind = some d') :
    d'.Tidy ∧ d'.Fresh ∧ d'.held = d.held ∧ takeTwo d.firsts.length = some d'.firsts.length := by
  obtain ⟨n, c, rest, firsts, firsts', nodes, count, held⟩ := leaveIf_some left
  have fewer : d'.firsts.Sublist d.firsts := by
    rw [firsts, firsts']
    exact ((List.Sublist.refl rest).cons c).cons n
  exact ⟨tidy.mono nodes count.ge fewer, fresh.mono nodes fewer,
    held, by simp [takeTwo, firsts, firsts']⟩

theorem Tidy.leaveFor (tidy : d.Tidy) (fresh : d.Fresh) (left : d.leaveFor = some d') :
    d'.Tidy ∧ d'.Fresh ∧ d'.held = d.held ∧ d'.firsts = d.firsts ∧ d.firsts ≠ [] := by
  obtain ⟨s, rest, firsts, firsts', nodes, count, held, _⟩ := leaveFor_some left
  have back : d'.firsts = d.firsts := by
    have falling := tidy.falling
    rw [firsts, List.pairwise_cons] at falling
    rw [firsts, firsts', addTo_newer falling.1]
  have same : d'.firsts.Sublist d.firsts := back ▸ .refl _
  exact ⟨tidy.mono nodes count same, fresh.mono nodes same, held, back, by simp [firsts]⟩

end Sketch

open Sketch

/-- Where the body is drawn, the firsts are as many as its balance says. -/
def Body.Counts (b : Body) : Prop :=
  ∀ d d' : Sketch, d.Tidy → b.draw d = some d' →
    d'.Tidy ∧ b.balance d.firsts.length = some d'.firsts.length ∧
      (d.Current ∨ b.hasRun = true → d'.Current)

def Otherwise.Counts (no : Otherwise) : Prop :=
  ∀ d d' : Sketch, d.Tidy → d.Fresh → d.held = "" → no.draw d = some d' →
    d'.Tidy ∧ d'.Fresh ∧ d'.held = "" ∧ no.balance d.firsts.length = some d'.firsts.length

variable {d d' : Sketch}

theorem Body.Counts.finish {b : Body} (counts : b.Counts) (filled : b.hasRun = true) (tidy : d.Tidy)
    (finished : b.finish d = some d') :
    d'.Tidy ∧ d'.Fresh ∧ d'.held = "" ∧ b.balance d.firsts.length = some d'.firsts.length := by
  obtain ⟨d₁, drew, left⟩ := Option.bind_eq_some_iff.mp finished
  obtain ⟨tidy₁, balance, current⟩ := counts d d₁ tidy drew
  obtain ⟨tidy', firsts, held, fresh⟩ := tidy₁.leaveBlock left
  exact ⟨tidy', fresh (current (.inr filled)), held, firsts ▸ balance⟩

theorem Sketch.Tidy.drawsIf {condition : String} {yes : Body} {no : Otherwise} (tidy : d.Tidy)
    (countsYes : yes.Counts) (filled : yes.hasRun = true) (countsNo : no.Counts)
    (drew : drawIf condition yes no d = some d') :
    d'.Tidy ∧ d'.Fresh ∧ d'.held = "" ∧
      balanceIf yes no d.firsts.length = some d'.firsts.length := by
  rw [drawIf_eq] at drew
  obtain ⟨d₁, entered, drew⟩ := Option.bind_eq_some_iff.mp drew
  obtain ⟨d₂, finished, drew⟩ := Option.bind_eq_some_iff.mp drew
  obtain ⟨d₃, drewNo, left⟩ := Option.bind_eq_some_iff.mp drew
  obtain ⟨tidy₁, _, c, firsts₁, _⟩ := tidy.enterThen entered
  obtain ⟨tidy₂, fresh₂, held₂, balanceYes⟩ := countsYes.finish filled tidy₁ finished
  obtain ⟨tidy₃, fresh₃, held₃, balanceNo⟩ := countsNo d₂ d₃ tidy₂ fresh₂ held₂ drewNo
  obtain ⟨tidy', fresh', held', taken⟩ := tidy₃.leaveIf fresh₃ left
  refine ⟨tidy', fresh', held'.trans held₃, ?_⟩
  rw [firsts₁] at balanceYes
  rw [balanceIf, ← List.length_cons, balanceYes, Option.bind_some, balanceNo,
    Option.bind_some, taken]

theorem Sketch.Tidy.enterLoop {condition : String} (tidy : d.Tidy)
    (entered : (d.enterFor condition).bind Sketch.enterBlock = some d') :
    d'.Tidy ∧ ∃ l, d'.firsts = l :: d.firsts ∧ d'.nodes.getLast? = some l ∧ d.count < l.number := by
  obtain ⟨d₃, enteredFor, enteredBlock⟩ := Option.bind_eq_some_iff.mp entered
  obtain ⟨d₁, flushed, enteredFor⟩ := Option.bind_eq_some_iff.mp enteredFor
  obtain ⟨d₂, placed, enteredFor⟩ := Option.bind_eq_some_iff.mp enteredFor
  cases enteredFor
  have grown := flush_count flushed
  obtain ⟨tidy₁, firsts₁, _⟩ := tidy.flush flushed
  obtain ⟨tidy₂, firsts₂, _, _, newest⟩ := tidy₁.place placed
  have tidy₃ : ({ d₂ with loops := (d₂.count : Int) :: d₂.loops } : Sketch).Tidy :=
    tidy₂.mono rfl le_rfl (.refl _)
  have newer : ∀ s ∈ d₂.firsts, s.number < d₁.count + 1 :=
    fun s hs => Nat.lt_succ_of_le (tidy₁.firsts_le s (firsts₂ ▸ hs))
  obtain ⟨tidy', firsts', _, nodes'⟩ := tidy₃.enterBlock newest newer nofun enteredBlock
  exact ⟨tidy', _, by rw [firsts', firsts₂, firsts₁], nodes' ▸ newest, Nat.lt_succ_of_le grown⟩

theorem Sketch.Tidy.drawsFor {condition : String} {body : Body} (tidy : d.Tidy)
    (counts : body.Counts) (filled : body.hasRun = true)
    (drew : drawFor condition body d = some d') :
    d'.Tidy ∧ d'.Fresh ∧ body.balance (d.firsts.length + 1) = some d'.firsts.length ∧
      d'.firsts ≠ [] := by
  rw [drawFor_eq] at drew
  obtain ⟨d₁, entered, drew⟩ := Option.bind_eq_some_iff.mp drew
  obtain ⟨d₂, finished, left⟩ := Option.bind_eq_some_iff.mp drew
  obtain ⟨tidy₁, l, firsts₁, _⟩ := tidy.enterLoop entered
  obtain ⟨tidy₂, fresh₂, _, balance⟩ := counts.finish filled tidy₁ finished
  obtain ⟨tidy', fresh', _, firsts, some⟩ := tidy₂.leaveFor fresh₂ left
  rw [firsts₁] at balance
  exact ⟨tidy', fresh', by rw [← List.length_cons, balance, firsts], firsts ▸ some⟩

theorem Sketch.hold_ne {text : String} (filled : text ≠ "") : (d.hold text).held ≠ "" :=
  fun empty => filled (String.append_eq_empty_iff.mp empty).2

mutual

theorem Body.counts : (b : Body) → b.Filled → b.Merged → b.Counts
  | .done, _, _, d, _, tidy, drew => by
      cases drew
      exact ⟨tidy, rfl, fun h => h.resolve_right nofun⟩
  | .run text rest, filled, merged, d, d', tidy, drew => by
      obtain ⟨tidy', balance, current⟩ :=
        rest.counts filled merged.2.2 (d.hold text) d' (tidy.mono rfl le_rfl (.refl _)) drew
      exact ⟨tidy', balance, fun _ => current (.inl (.inr (hold_ne merged.1)))⟩
  | .branch condition yes no rest, filled, merged, d, d', tidy, drew => by
      obtain ⟨⟨runYes, filledYes⟩, filledNo, filled⟩ := filled
      obtain ⟨mergedYes, mergedNo, merged⟩ := merged
      rw [Body.draw_branch] at drew
      obtain ⟨d₁, drewIf, drew⟩ := Option.bind_eq_some_iff.mp drew
      obtain ⟨tidy₁, fresh₁, _, balanceIf⟩ := tidy.drawsIf (yes.counts filledYes mergedYes) runYes
        (no.counts filledNo mergedNo) drewIf
      obtain ⟨tidy', balance, current⟩ := rest.counts filled merged d₁ d' tidy₁ drew
      refine ⟨tidy', ?_, fun _ => current (.inl (.inl fresh₁))⟩
      rw [Body.balance_branch, balanceIf, Option.bind_some, balance]
  | .loop condition body rest, filled, merged, d, d', tidy, drew => by
      obtain ⟨⟨runBody, filledBody⟩, filled⟩ := filled
      obtain ⟨mergedBody, merged⟩ := merged
      rw [Body.draw_loop] at drew
      obtain ⟨d₁, drewFor, drew⟩ := Option.bind_eq_some_iff.mp drew
      obtain ⟨tidy₁, fresh₁, balanceFor, left⟩ :=
        tidy.drawsFor (body.counts filledBody mergedBody) runBody drewFor
      obtain ⟨tidy', balance, current⟩ := rest.counts filled merged d₁ d' tidy₁ drew
      refine ⟨tidy', ?_, fun _ => current (.inl (.inl fresh₁))⟩
      rw [Body.balance, balanceFor]
      change (if d₁.firsts.length = 0 then none else _) = _
      rw [if_neg (mt List.length_eq_zero_iff.mp left), balance]

theorem Otherwise.counts : (no : Otherwise) → no.Filled → no.Merged → no.Counts
  | .nothing, _, _, d, _, tidy, fresh, held, drew => by
      cases drew
      exact ⟨tidy, fresh, held, rfl⟩
  | .block body, ⟨runBody, filled⟩, merged, d, d', tidy, ⟨n, newest, statement, newer⟩, _,
      drew => by
      rw [Otherwise.draw_block] at drew
      obtain ⟨d₁, entered, finished⟩ := Option.bind_eq_some_iff.mp drew
      obtain ⟨tidy₁, firsts₁, _⟩ := tidy.enterBlock newest newer statement entered
      have counted := (body.counts filled merged).finish runBody tidy₁ finished
      rw [firsts₁] at counted
      exact counted
  | .elseIf condition yes no, ⟨⟨runYes, filledYes⟩, filledNo⟩, ⟨mergedYes, mergedNo⟩, d, d',
      tidy, _, _, drew => by
      rw [Otherwise.draw_elseIf] at drew
      rw [Otherwise.balance_elseIf]
      exact tidy.drawsIf (yes.counts filledYes mergedYes) runYes (no.counts filledNo mergedNo) drew

end

def Function.Filled (f : Function) : Prop := f.body.hasRun = true ∧ f.body.Filled

theorem Sketch.Tidy.enterFunction {name : String} (tidy : d.Tidy)
    (entered : (d.enterFunction name).bind Sketch.enterBlock = some d') :
    d'.Tidy ∧ d'.firsts = d.firsts := by
  obtain ⟨d₂, enteredFunction, enteredBlock⟩ := Option.bind_eq_some_iff.mp entered
  obtain ⟨d₁, placed, rfl⟩ := Option.map_eq_some_iff.mp enteredFunction
  obtain ⟨tidy₁, firsts₁, _, _, newest⟩ := tidy.place placed
  simp only [Sketch.enterBlock, newest, Option.map_some, if_true] at enteredBlock
  cases enteredBlock
  exact ⟨tidy₁.mono rfl le_rfl (.refl _), firsts₁⟩

theorem Function.counts (f : Function) (filled : f.Filled) (merged : f.body.Merged) (tidy : d.Tidy)
    (drew : f.draw d = some d') :
    d'.Tidy ∧ f.body.balance d.firsts.length = some d'.firsts.length := by
  rw [Function.draw_eq] at drew
  obtain ⟨d₁, entered, drew⟩ := Option.bind_eq_some_iff.mp drew
  obtain ⟨d₂, finished, left⟩ := Option.bind_eq_some_iff.mp drew
  obtain ⟨tidy₁, firsts₁⟩ := tidy.enterFunction entered
  obtain ⟨tidy₂, _, _, balance⟩ := (f.body.counts filled.2 merged).finish filled.1 tidy₁ finished
  obtain ⟨tidy', firsts', _⟩ := tidy₂.place left
  exact ⟨tidy', by rw [← firsts₁, balance, firsts']⟩

theorem drawAll_counts (fs : List Function) (filled : ∀ f ∈ fs, f.Filled)
    (merged : ∀ f ∈ fs, f.body.Merged) (tidy : d.Tidy) (drew : drawAll fs d = some d') :
    balanceAll fs d.firsts.length = some d'.firsts.length := by
  induction fs generalizing d with
  | nil =>
      cases drew
      rfl
  | cons f fs ih =>
      obtain ⟨filledFirst, filled⟩ := List.forall_mem_cons.mp filled
      obtain ⟨mergedFirst, merged⟩ := List.forall_mem_cons.mp merged
      obtain ⟨d₁, drewFirst, drew⟩ := Option.bind_eq_some_iff.mp drew
      obtain ⟨tidy₁, balance⟩ := f.counts filledFirst mergedFirst tidy drewFirst
      rw [balanceAll, balance, Option.bind_some]
      exact ih filled merged tidy₁ drew

end GoFlow
