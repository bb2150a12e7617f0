import GoFlow.Proofs.Completion
import GoFlow.Proofs.Places
import GoFlow.Proofs.Traces

/-! Which node an if statement or a loop takes for its own when it is left. It takes it off the
firsts, and finds the node that was made when the statement was entered just if what stands within
has put as much on the firsts as it has taken off. -/

namespace GoFlow

open Dot (Statement endNode)
open Move Builder Sketch

/-- What is done to a stack: so much is taken off first, and then so much is left there. -/
structure Trade where
  taken : Nat
  left : Nat
  deriving DecidableEq, Repr

namespace Trade

def next (t u : Trade) : Trade := ⟨t.taken + (u.taken - t.left), u.left + (t.left - u.taken)⟩

def still : Trade := ⟨0, 0⟩

def push : Trade := ⟨0, 1⟩

def dropTwo : Trade := ⟨2, 0⟩

/-- The trade turns one stack into another; what it leaves there is beyond the number. -/
def Turns (t : Trade) (n : Nat) (stack stack' : List Spot) : Prop :=
  t.taken ≤ stack.length ∧ ∃ new, stack' = new ++ stack.drop t.taken ∧ new.length = t.left ∧
    ∀ s ∈ new, n < s.number

variable {t u : Trade} {n : Nat} {stack stack' stack'' : List Spot}

theorem Turns.next (first : t.Turns n stack stack') (second : u.Turns n stack' stack'') :
    (t.next u).Turns n stack stack'' := by
  obtain ⟨enough, new, rfl, length, beyond⟩ := first
  obtain ⟨enough', new', rfl, length', beyond'⟩ := second
  rw [List.length_append, List.length_drop] at enough'
  refine ⟨?_, new' ++ new.drop u.taken, ?_, ?_, ?_⟩
  · simp only [Trade.next]
    omega
  · rw [List.drop_append, List.drop_drop, length, List.append_assoc]
    rfl
  · simp only [Trade.next, List.length_append, List.length_drop, length, length']
  · intro s hs
    rcases List.mem_append.mp hs with later | former
    · exact beyond' s later
    · exact beyond s (List.mem_of_mem_drop former)

theorem turns_still (n : Nat) (stack : List Spot) : still.Turns n stack stack :=
  ⟨Nat.zero_le _, [], rfl, rfl, nofun⟩

theorem turns_push {s : Spot} (beyond : n < s.number) (stack : List Spot) :
    push.Turns n stack (s :: stack) :=
  ⟨Nat.zero_le _, [s], rfl, rfl, by simpa using beyond⟩

theorem turns_dropTwo (n : Nat) (s c : Spot) (stack : List Spot) :
    dropTwo.Turns n (s :: c :: stack) stack :=
  ⟨Nat.le_add_left 2 _, [], rfl, rfl, nofun⟩

theorem Turns.first {s l : Spot} {rest : List Spot} (turns : t.Turns n (l :: stack) (s :: rest))
    (own : l.number ≤ n) (older : ∀ x ∈ stack, x.number < l.number) : s = l ↔ t = still := by
  obtain ⟨taken, left⟩ := t
  obtain ⟨_, new, same, length, beyond⟩ := turns
  constructor
  · rintro rfl
    cases new with
    | cons x new =>
        cases same
        exact absurd (beyond s List.mem_cons_self) (by omega)
    | nil =>
        cases taken with
        | zero =>
            cases length
            rfl
        | succ k =>
            have member : s ∈ stack := List.mem_of_mem_drop (i := k) (by
              rw [← show s :: rest = stack.drop k from same]
              exact List.mem_cons_self)
            exact absurd (older s member) (Nat.lt_irrefl _)
  · rintro ⟨⟩
    cases List.eq_nil_of_length_eq_zero length
    cases same
    rfl

theorem Turns.second {s c c' : Spot} {rest : List Spot}
    (turns : t.Turns n (c :: stack) (s :: c' :: rest)) (own : c.number ≤ n)
    (older : ∀ x ∈ stack, x.number < c.number) : c' = c ↔ t = push := by
  obtain ⟨taken, left⟩ := t
  obtain ⟨_, new, same, length, beyond⟩ := turns
  constructor
  · rintro rfl
    have absent : c' ∉ new := fun member => absurd (beyond c' member) (by omega)
    cases taken with
    | succ k =>
        have member : c' ∈ new ++ stack.drop k := by
          rw [← show s :: c' :: rest = new ++ stack.drop k from same]
          simp
        rcases List.mem_append.mp member with inside | below
        · exact absurd inside absent
        · exact absurd (older c' (List.mem_of_mem_drop below)) (Nat.lt_irrefl _)
    | zero =>
        cases new with
        | nil =>
            obtain ⟨_, below⟩ := List.cons.inj (show s :: c' :: rest = c' :: stack from same)
            exact absurd (older c' (below ▸ List.mem_cons_self)) (Nat.lt_irrefl _)
        | cons x new =>
            cases new with
            | nil =>
                cases length
                rfl
            | cons y new =>
                cases same
                exact absurd (List.mem_cons_of_mem _ List.mem_cons_self) absent
  · rintro ⟨⟩
    obtain ⟨x, rfl⟩ := List.length_eq_one_iff.mp length
    cases same
    rfl

end Trade

mutual

/-- What drawing the body does to the firsts. -/
def Body.trade : Body → Trade
  | .done => .still
  | .run _ rest => rest.trade
  | .branch _ yes no rest =>
      ((Trade.push.next (yes.trade.next no.trade)).next .dropTwo).next rest.trade
  | .loop _ body rest => (Trade.push.next body.trade).next rest.trade

def Otherwise.trade : Otherwise → Trade
  | .nothing => .still
  | .block body => Trade.push.next body.trade
  | .elseIf _ yes no => (Trade.push.next (yes.trade.next no.trade)).next .dropTwo

end

namespace Sketch

variable {d d' : Sketch} {m : Nat}

/-- The node made last is beyond the number, or one will be made at the end of the block. -/
def Ahead (m : Nat) (d : Sketch) : Prop :=
  (∃ s, d.nodes.getLast? = some s ∧ m < s.number) ∨ d.held ≠ ""

theorem ahead_place {role : Role} {text shape : String} (placed : d.place role text shape = some d')
    (le : m ≤ d.count) : ∃ s, d'.nodes.getLast? = some s ∧ m < s.number := by
  obtain ⟨_, _, _, rfl⟩ := place_frame placed
  exact ⟨⟨role, d.count + 1⟩, by simp [Sketch.declare], Nat.lt_succ_of_le le⟩

theorem Ahead.flush (ahead : d.Ahead m) (le : m ≤ d.count) (flushed : d.flush = some d') :
    ∃ s, d'.nodes.getLast? = some s ∧ m < s.number := by
  unfold Sketch.flush at flushed
  split at flushed
  · rename_i empty
    cases flushed
    exact ahead.resolve_right (not_not_intro empty)
  · obtain ⟨d₁, placed, rfl⟩ := Option.map_eq_some_iff.mp flushed
    exact (show ∃ s, d₁.nodes.getLast? = some s ∧ m < s.number from ahead_place placed le)

theorem leaveBlock_count (left : d.leaveBlock = some d') : d.count ≤ d'.count :=
  flush_count (d := { d with level := d.level - 1 }) left

end Sketch

/-- Where the body is drawn, its trade turns the firsts into those there are afterwards. -/
def Body.Trades (b : Body) : Prop :=
  ∀ (d d' : Sketch) (m : Nat), d.Tidy → m ≤ d.count → b.draw d = some d' →
    d.count ≤ d'.count ∧ b.trade.Turns m d.firsts d'.firsts ∧
    (d.Ahead m ∨ b.hasRun = true → d'.Ahead m)

def Otherwise.Trades (no : Otherwise) : Prop :=
  ∀ (d d' : Sketch) (m : Nat), d.Tidy → d.Fresh → d.held = "" → m ≤ d.count →
    (∃ s, d.nodes.getLast? = some s ∧ m < s.number) → no.draw d = some d' →
    d.count ≤ d'.count ∧ no.trade.Turns m d.firsts d'.firsts ∧ ∃ s, d'.nodes.getLast? = some s ∧
    m < s.number

variable {d d' : Sketch} {m : Nat}

theorem Body.Trades.finish {b : Body} (trades : b.Trades) (counts : b.Counts)
    (filled : b.hasRun = true) (tidy : d.Tidy) (le : m ≤ d.count)
    (finished : b.finish d = some d') :
    d.count ≤ d'.count ∧ b.trade.Turns m d.firsts d'.firsts ∧ ∃ s, d'.nodes.getLast? = some s ∧
      m < s.number := by
  obtain ⟨d₁, drew, left⟩ := Option.bind_eq_some_iff.mp finished
  obtain ⟨grown, turns, ahead⟩ := trades d d₁ m tidy le drew
  obtain ⟨_, firsts, _⟩ := (counts d d₁ tidy drew).1.leaveBlock left
  have newer : (Sketch.Ahead m { d₁ with level := d₁.level - 1 }) := ahead (.inr filled)
  exact ⟨grown.trans (leaveBlock_count left), firsts ▸ turns, newer.flush (le.trans grown) left⟩

theorem Sketch.Tidy.tradesInside {condition : String} {kind : Branches} {yes : Body}
    {no : Otherwise} {d₁ d₂ d₃ : Sketch} (tidy : d.Tidy) (tradesYes : yes.Trades)
    (countsYes : yes.Counts) (filled : yes.hasRun = true) (tradesNo : no.Trades)
    (entered : (d.enterIf condition kind).bind Sketch.enterBlock = some d₁) (le : m ≤ d₁.count)
    (finished : yes.finish d₁ = some d₂) (drew : no.draw d₂ = some d₃) :
    d₁.count ≤ d₃.count ∧ (yes.trade.next no.trade).Turns m d₁.firsts d₃.firsts ∧
      ∃ s, d₃.nodes.getLast? = some s ∧ m < s.number := by
  obtain ⟨tidy₁, _⟩ := tidy.enterThen entered
  obtain ⟨grown, turns, newer⟩ := tradesYes.finish countsYes filled tidy₁ le finished
  obtain ⟨tidy₂, fresh₂, held₂, _⟩ := countsYes.finish filled tidy₁ finished
  obtain ⟨grown', turns', newer'⟩ := tradesNo d₂ d₃ m tidy₂ fresh₂ held₂ (le.trans grown) newer drew
  exact ⟨grown.trans grown', turns.next turns', newer'⟩

theorem Sketch.Tidy.tradesIf {condition : String} {yes : Body} {no : Otherwise} (tidy : d.Tidy)
    (tradesYes : yes.Trades) (countsYes : yes.Counts) (filled : yes.hasRun = true)
    (tradesNo : no.Trades) (le : m ≤ d.count) (drew : drawIf condition yes no d = some d') :
    d.count ≤ d'.count ∧
      ((Trade.push.next (yes.trade.next no.trade)).next .dropTwo).Turns m d.firsts d'.firsts ∧
      ∃ s, d'.nodes.getLast? = some s ∧ m < s.number := by
  rw [drawIf_eq] at drew
  obtain ⟨d₁, entered, drew⟩ := Option.bind_eq_some_iff.mp drew
  obtain ⟨d₂, finished, drew⟩ := Option.bind_eq_some_iff.mp drew
  obtain ⟨d₃, drewNo, left⟩ := Option.bind_eq_some_iff.mp drew
  obtain ⟨tidy₁, _, c, firsts₁, newest, new⟩ := tidy.enterThen entered
  have grown₁ : d.count < d₁.count := new.trans_le (tidy₁.bounded c (List.mem_of_getLast? newest))
  obtain ⟨grown, turns, newer⟩ := tidy.tradesInside tradesYes countsYes filled tradesNo entered
    (le.trans grown₁.le) finished drewNo
  obtain ⟨n, c', rest, firsts₃, firsts', nodes, count, _⟩ := leaveIf_some left
  have entering := Trade.turns_push (Nat.lt_of_le_of_lt le new) d.firsts
  have leaving := Trade.turns_dropTwo m n c' rest
  rw [← firsts₁] at entering
  rw [← firsts₃, ← firsts'] at leaving
  refine ⟨by omega, (entering.next turns).next leaving, ?_⟩
  rw [nodes]
  exact newer

theorem Sketch.Tidy.tradesFor {condition : String} {body : Body} (tidy : d.Tidy)
    (trades : body.Trades) (counts : body.Counts) (filled : body.hasRun = true) (le : m ≤ d.count)
    (drew : drawFor condition body d = some d') :
    d.count ≤ d'.count ∧ (Trade.push.next body.trade).Turns m d.firsts d'.firsts ∧
      ∃ s, d'.nodes.getLast? = some s ∧ m < s.number := by
  rw [drawFor_eq] at drew
  obtain ⟨d₁, entered, drew⟩ := Option.bind_eq_some_iff.mp drew
  obtain ⟨d₂, finished, left⟩ := Option.bind_eq_some_iff.mp drew
  obtain ⟨tidy₁, l, firsts₁, newest, new⟩ := tidy.enterLoop entered
  have grown₁ : d.count < d₁.count := new.trans_le (tidy₁.bounded l (List.mem_of_getLast? newest))
  obtain ⟨grown, turns, newer⟩ := trades.finish counts filled tidy₁ (le.trans grown₁.le) finished
  obtain ⟨tidy₂, fresh₂, _⟩ := counts.finish filled tidy₁ finished
  obtain ⟨_, _, _, firsts', _⟩ := tidy₂.leaveFor fresh₂ left
  obtain ⟨_, _, _, _, nodes, count, _⟩ := leaveFor_some left
  have entering := Trade.turns_push (Nat.lt_of_le_of_lt le new) d.firsts
  rw [← firsts₁] at entering
  rw [← firsts'] at turns
  refine ⟨by omega, entering.next turns, ?_⟩
  rw [nodes]
  exact newer

mutual

theorem Body.trades : (b : Body) → b.Filled → b.Merged → b.Trades
  | .done, _, _, d, _, m, _, _, drew => by
      cases drew
      exact ⟨le_rfl, Trade.turns_still m d.firsts, fun h => h.resolve_right nofun⟩
  | .run text rest, filled, merged, d, d', m, tidy, le, drew => by
      obtain ⟨grown, turns, ahead⟩ :=
        rest.trades filled merged.2.2 (d.hold text) d' m (tidy.mono rfl le_rfl (.refl _)) le drew
      exact ⟨grown, turns, fun _ => ahead (.inl (.inr (hold_ne merged.1)))⟩
  | .branch condition yes no rest, filled, merged, d, d', m, tidy, le, drew => by
      obtain ⟨⟨runYes, filledYes⟩, filledNo, filled⟩ := filled
      obtain ⟨mergedYes, mergedNo, merged⟩ := merged
      rw [Body.draw_branch] at drew
      obtain ⟨d₁, drewIf, drew⟩ := Option.bind_eq_some_iff.mp drew
      have countsYes := yes.counts filledYes mergedYes
      obtain ⟨tidy₁, _⟩ := tidy.drawsIf countsYes runYes (no.counts filledNo mergedNo) drewIf
      obtain ⟨grown, turns, newer⟩ :=
        tidy.tradesIf (yes.trades filledYes mergedYes) countsYes runYes
          (no.trades filledNo mergedNo) le drewIf
      obtain ⟨grown', turns', ahead⟩ :=
        rest.trades filled merged d₁ d' m tidy₁ (le.trans grown) drew
      exact ⟨grown.trans grown', turns.next turns', fun _ => ahead (.inl (.inl newer))⟩
  | .loop condition body rest, filled, merged, d, d', m, tidy, le, drew => by
      obtain ⟨⟨runBody, filledBody⟩, filled⟩ := filled
      obtain ⟨mergedBody, merged⟩ := merged
      rw [Body.draw_loop] at drew
      obtain ⟨d₁, drewFor, drew⟩ := Option.bind_eq_some_iff.mp drew
      have counts := body.counts filledBody mergedBody
      obtain ⟨tidy₁, _⟩ := tidy.drawsFor counts runBody drewFor
      obtain ⟨grown, turns, newer⟩ :=
        tidy.tradesFor (body.trades filledBody mergedBody) counts runBody le drewFor
      obtain ⟨grown', turns', ahead⟩ :=
        rest.trades filled merged d₁ d' m tidy₁ (le.trans grown) drew
      exact ⟨grown.trans grown', turns.next turns', fun _ => ahead (.inl (.inl newer))⟩

theorem Otherwise.trades : (no : Otherwise) → no.Filled → no.Merged → no.Trades
  | .nothing, _, _, d, _, m, _, _, _, _, newer, drew => by
      cases drew
      exact ⟨le_rfl, Trade.turns_still m d.firsts, newer⟩
  | .block body, ⟨runBody, filled⟩, merged, d, d', m, tidy,
      ⟨n, newest, statement, newerFirsts⟩, _, le, ⟨n', newest', beyond⟩, drew => by
      rw [Otherwise.draw_block] at drew
      obtain ⟨d₁, entered, finished⟩ := Option.bind_eq_some_iff.mp drew
      cases newest.symm.trans newest'
      obtain ⟨tidy₁, firsts₁, _⟩ := tidy.enterBlock newest newerFirsts statement entered
      have count₁ : d₁.count = d.count := by
        rw [Sketch.enterBlock, newest] at entered
        cases entered
        rfl
      have entering := Trade.turns_push beyond d.firsts
      rw [← firsts₁] at entering
      obtain ⟨grown, turns, newer⟩ :=
        (body.trades filled merged).finish (body.counts filled merged) runBody tidy₁
          (count₁ ▸ le) finished
      exact ⟨count₁ ▸ grown, entering.next turns, newer⟩
  | .elseIf condition yes no, ⟨⟨runYes, filledYes⟩, filledNo⟩, ⟨mergedYes, mergedNo⟩, d, d', m,
      tidy, _, _, le, _, drew => by
      rw [Otherwise.draw_elseIf] at drew
      exact tidy.tradesIf (yes.trades filledYes mergedYes) (yes.counts filledYes mergedYes) runYes
        (no.trades filledNo mergedNo) le drew

end

namespace Compound

def Filled : Compound → Prop
  | fork _ yes no => (yes.hasRun = true ∧ yes.Filled) ∧ no.Filled
  | loop _ body => body.hasRun = true ∧ body.Filled

end Compound

mutual

theorem Body.Reaches.tidy {b : Body} {d e : Sketch} {s : Compound} (reaches : b.Reaches d s e)
    (tidy : d.Tidy) (filled : b.Filled) : e.Tidy ∧ s.Filled :=
  match reaches with
  | .run later => later.tidy (tidy.mono rfl le_rfl (.refl _)) filled
  | .branch inside => inside.tidy tidy ⟨filled.1, filled.2.1⟩
  | .afterBranch merged drew later => by
      obtain ⟨⟨runYes, filledYes⟩, filledNo, filled⟩ := filled
      have after := tidy.drawsIf (Body.counts _ filledYes merged.1) runYes
        (Otherwise.counts _ filledNo merged.2) drew
      exact later.tidy after.1 filled
  | .loop inside => inside.tidy tidy filled.1
  | .afterLoop merged drew later => by
      obtain ⟨⟨runBody, filledBody⟩, filled⟩ := filled
      exact later.tidy (tidy.drawsFor (Body.counts _ filledBody merged) runBody drew).1 filled

theorem Compound.Reaches.tidy {s s' : Compound} {d e : Sketch} (reaches : s.Reaches d s' e)
    (tidy : d.Tidy) (filled : s.Filled) : e.Tidy ∧ s'.Filled :=
  match reaches with
  | .here _ _ => ⟨tidy, filled⟩
  | .yes entered inside => inside.tidy (tidy.enterThen entered).1 filled.1.2
  | .no merged entered finished begun inside => by
      have counts := Body.counts _ filled.1.2 merged
      obtain ⟨tidy₂, ⟨n, newest, statement, newer⟩, _⟩ :=
        counts.finish filled.1.1 (tidy.enterThen entered).1 finished
      exact inside.tidy (tidy₂.enterBlock newest newer statement begun).1 filled.2.2
  | .elseIf merged entered finished inside => by
      have counts := Body.counts _ filled.1.2 merged
      obtain ⟨tidy₂, _⟩ := counts.finish filled.1.1 (tidy.enterThen entered).1 finished
      exact inside.tidy tidy₂ filled.2
  | .body entered inside => inside.tidy (tidy.enterLoop entered).1 filled.2

end

/-- The edges for both outcomes are there, and they leave from the node. -/
def ForksAt (own : String) (added : List Statement) : Prop :=
  ∀ outcome ∈ ["true", "false"],
    (∃ tail head attributes, .edge tail head attributes ∈ added ∧ ("label", outcome) ∈ attributes) ∧
      ∀ tail head attributes, .edge tail head attributes ∈ added → ("label", outcome) ∈ attributes →
        endNode tail = own

/-- The first edge leaves from the node. There is an edge that closes a loop, and it arrives at the
node. -/
def LoopsAt (own : String) (added : List Statement) : Prop :=
  (∃ tail head rest, added = .edge tail head [] :: rest ∧ endNode tail = own) ∧
    (∃ s ∈ added, s.Closes) ∧
      ∀ tail head attributes, .edge tail head attributes ∈ added → ("headport", "w") ∈ attributes →
        endNode head = own

theorem forksAt_iff {own c first second : Spot} :
    ForksAt own.name
      ([.edge (.south c) first [("label", "true"), ("headport", "n"), ("tailport", "w")],
        .edge (.south c) second [("label", "false"), ("headport", "n"), ("tailport", "e")]].map
          Stroke.statement) ↔ c = own := by
  have tail : endNode (Port.south c).tail = c.name := endNode_tail _
  simp only [ForksAt, edge_mem_statements]
  constructor
  · intro forks
    have leaving :=
      (forks "true" (by simp)).2 _ _ _ ⟨.south c, first, List.mem_cons_self, rfl, rfl⟩ (by simp)
    exact Spot.name_injective (tail.symm.trans leaving)
  · rintro rfl outcome member
    refine ⟨?_, ?_⟩
    · simp only [List.mem_cons, List.not_mem_nil, or_false] at member
      rcases member with rfl | rfl
      · exact ⟨_, _, _, ⟨.south c, first, List.mem_cons_self, rfl, rfl⟩, by simp⟩
      · exact ⟨_, _, _,
          ⟨.south c, second, List.mem_cons_of_mem _ List.mem_cons_self, rfl, rfl⟩, by simp⟩
    · rintro _ _ attributes ⟨p, t, there, rfl, rfl⟩ _
      have port : p = .south c := by
        simp only [List.mem_cons, List.not_mem_nil, or_false, Stroke.edge.injEq] at there
        rcases there with h | h <;> exact h.1
      rw [port, tail]

theorem loopsAt_iff {own l first : Spot} {tail : Port} {between : List Stroke}
    (plain : ∀ x ∈ between, ∃ p t, x = .edge p t []) :
    LoopsAt own.name
      ((.edge (.south l) first [] ::
        (between ++ [.edge tail l [("headport", "w"), ("tailport", "w")]])).map
          Stroke.statement) ↔ l = own := by
  have name : endNode (Port.south l).tail = l.name := endNode_tail _
  constructor
  · rintro ⟨⟨_, _, _, same, leaving⟩, _⟩
    cases (List.cons.inj same).1
    exact Spot.name_injective (name.symm.trans leaving)
  · rintro rfl
    have last : Stroke.edge tail l [("headport", "w"), ("tailport", "w")] ∈
        .edge (.south l) first [] ::
          (between ++ [.edge tail l [("headport", "w"), ("tailport", "w")]]) := by
      simp
    refine ⟨⟨_, _, _, rfl, name⟩,
      ⟨_, List.mem_map_of_mem last, by simp [Stroke.statement, Statement.Closes]⟩, ?_⟩
    intro _ _ attributes there closes
    obtain ⟨p, t, drawn, rfl, rfl⟩ := edge_mem_statements.mp there
    rw [endNode_head]
    simp only [List.mem_cons, List.mem_append, List.not_mem_nil, or_false, Stroke.edge.injEq]
      at drawn
    rcases drawn with ⟨_, _, rfl⟩ | inner | ⟨_, rfl, _⟩
    · cases closes
    · obtain ⟨_, _, same⟩ := plain _ inner
      cases same
      cases closes
    · rfl

mutual

def Body.loopCount : Body → Nat
  | .done => 0
  | .run _ rest => rest.loopCount
  | .branch _ yes no rest => yes.loopCount + no.loopCount + rest.loopCount
  | .loop _ body rest => body.loopCount + rest.loopCount + 1

def Otherwise.loopCount : Otherwise → Nat
  | .nothing => 0
  | .block body => body.loopCount
  | .elseIf _ yes no => yes.loopCount + no.loopCount

end

/-- Where each if statement has an else block, one first is left for each loop. -/
theorem Body.twoSided_trade : (b : Body) → b.TwoSided → b.trade = ⟨0, b.loopCount⟩
  | .done, _ => rfl
  | .run _ rest, sides => rest.twoSided_trade sides
  | .branch _ yes (.block no) rest, ⟨sidesYes, sidesNo, sides⟩ => by
      rw [Body.trade, Otherwise.trade, yes.twoSided_trade sidesYes, no.twoSided_trade sidesNo,
        rest.twoSided_trade sides]
      simp only [Trade.next, Trade.push, Trade.dropTwo, Body.loopCount, Otherwise.loopCount,
        Trade.mk.injEq]
      omega
  | .loop _ body rest, ⟨sidesBody, sides⟩ => by
      rw [Body.trade, body.twoSided_trade sidesBody, rest.twoSided_trade sides]
      simp only [Trade.next, Trade.push, Body.loopCount, Trade.mk.injEq]
      omega

/-- The node made when the statement is entered after the events. -/
def madeOnEntering (before : List Event) (h : Head) (us : List Tree) : Option String :=
  (built (before ++ [.enter h us])).nodes.getLast?

/-- What is added to the graph when the statement is left. -/
def addedOnLeaving (before : List Event) (h : Head) (us : List Tree) : List Statement :=
  (built (before ++ (Tree.node h us).walk)).graph.drop
    (built (before ++ .enter h us :: Tree.walkAll us)).graph.length

theorem passes_node {before : List Event} {h : Head} {us : List Tree} {c : Builder}
    (passes : Passes (before ++ (Tree.node h us).walk) (Builder.new .late) c) :
    ∃ b b₁ b₂, Passes before (Builder.new .late) b ∧ Passes [.enter h us] b b₁ ∧
      Passes (Tree.walkAll us) b₁ b₂ ∧ Passes [.leave h us] b₂ c ∧
      madeOnEntering before h us = b₁.nodes.getLast? ∧
      addedOnLeaving before h us = c.graph.drop b₂.graph.length := by
  obtain ⟨b, first, walked⟩ := passes_append.mp passes
  obtain ⟨b₁, entering, walked⟩ :=
    passes_append.mp (show Passes ([.enter h us] ++ _) b c from walked)
  obtain ⟨b₂, inside, leaving⟩ := passes_append.mp walked
  have entered := (passes_append.mpr ⟨b, first, entering⟩).built
  have finished : built (before ++ .enter h us :: Tree.walkAll us) = b₂ :=
    (passes_append.mpr ⟨b, first, passes_append.mpr ⟨b₁, entering, inside⟩⟩).built
  refine ⟨b, b₁, b₂, first, entering, inside, leaving, ?_, ?_⟩
  · rw [madeOnEntering, entered]
  · rw [addedOnLeaving, passes.built, finished]

theorem Sketch.Encodes.drop_graph {d d' : Sketch} {b c : Builder} (encodes : d.Encodes b)
    (encodes' : d'.Encodes c) {strokes : List Stroke} (more : d'.strokes = d.strokes ++ strokes) :
    c.graph.drop b.graph.length = strokes.map Stroke.statement := by
  rw [encodes.graph, encodes'.graph, more, List.map_append, List.drop_left]

theorem Sketch.enterBlock_nodes {d d' : Sketch} (entered : d.enterBlock = some d') :
    d'.nodes = d.nodes := by
  obtain ⟨_, _, rfl⟩ := Option.map_eq_some_iff.mp entered
  rfl

/-- Leaving an if statement with an else finds the node of the statement just if the branches put
one first more on the stack than they take off. -/
theorem Compound.fork_own {condition : String} {yes : Body} {no : Otherwise} {d d₀ d₃ d₄ : Sketch}
    {b₁ b₃ b₄ : Builder} (tidy : d.Tidy) (filled : (Compound.fork condition yes no).Filled)
    (merged : (Compound.fork condition yes no).Merged) (kind : no.branches = .thenElse)
    (entered : d.enterIf condition no.branches = some d₀)
    (drew : (yes.drawBlock d₀).bind no.draw = some d₃) (left : d₃.leaveIf no.branches = some d₄)
    (encodes₀ : d₀.Encodes b₁) (encodes₃ : d₃.Encodes b₃) (encodes₄ : d₄.Encodes b₄) :
    ∃ own, b₁.nodes.getLast? = some own ∧
      (ForksAt own (b₄.graph.drop b₃.graph.length) ↔ yes.trade.next no.trade = .push) := by
  obtain ⟨d₂, drewYes, drewNo⟩ := Option.bind_eq_some_iff.mp drew
  obtain ⟨d₁, begun, finished⟩ := Option.bind_eq_some_iff.mp drewYes
  have entered₁ : (d.enterIf condition no.branches).bind enterBlock = some d₁ :=
    Option.bind_eq_some_iff.mpr ⟨d₀, entered, begun⟩
  obtain ⟨tidy₁, _, own, firsts₁, newest, new⟩ := tidy.enterThen entered₁
  obtain ⟨_, turns, _⟩ :=
    tidy.tradesInside (yes.trades filled.1.2 merged.1) (yes.counts filled.1.2 merged.1)
      filled.1.1 (no.trades filled.2 merged.2) entered₁ le_rfl finished drewNo
  rw [kind] at left
  obtain ⟨d₅, leftElse, popped⟩ := Option.bind_eq_some_iff.mp left
  obtain ⟨n, c, rest, _, _, first, second, firsts₃, rfl⟩ := leaveIfElse_some leftElse
  obtain ⟨_, rfl⟩ := popBranch_some popped
  refine ⟨own.name, ?_, ?_⟩
  · rw [encodes₀.nodes, List.getLast?_map, ← enterBlock_nodes begun, newest]
    rfl
  · rw [encodes₃.drop_graph encodes₄ (List.append_assoc _ _ _), List.singleton_append, forksAt_iff]
    rw [firsts₁, firsts₃] at turns
    refine turns.second (tidy₁.bounded own (List.mem_of_getLast? newest)) fun x hx => ?_
    exact Nat.lt_of_le_of_lt (tidy.firsts_le x hx) new

/-- Leaving a loop finds the node of the loop just if its body leaves the firsts as they are. -/
theorem Compound.loop_own {condition : String} {body : Body} {d d₀ d₃ d₄ : Sketch}
    {b₁ b₃ b₄ : Builder} (tidy : d.Tidy) (filled : (Compound.loop condition body).Filled)
    (merged : (Compound.loop condition body).Merged) (entered : d.enterFor condition = some d₀)
    (drew : body.drawBlock d₀ = some d₃) (left : d₃.leaveFor = some d₄) (encodes₀ : d₀.Encodes b₁)
    (encodes₃ : d₃.Encodes b₃) (encodes₄ : d₄.Encodes b₄) :
    ∃ own, b₁.nodes.getLast? = some own ∧
      (LoopsAt own (b₄.graph.drop b₃.graph.length) ↔ body.trade = .still) := by
  obtain ⟨d₁, begun, finished⟩ := Option.bind_eq_some_iff.mp drew
  have entered₁ : (d.enterFor condition).bind enterBlock = some d₁ :=
    Option.bind_eq_some_iff.mpr ⟨d₀, entered, begun⟩
  obtain ⟨tidy₁, own, firsts₁, newest, new⟩ := tidy.enterLoop entered₁
  obtain ⟨_, turns, _⟩ :=
    (body.trades filled.2 merged).finish (body.counts filled.2 merged) filled.1 tidy₁ le_rfl
      finished
  obtain ⟨l, rest, firsts₃, _, _, _, _, first, between, tail, plain, strokes⟩ := leaveFor_some left
  refine ⟨own.name, ?_, ?_⟩
  · rw [encodes₀.nodes, List.getLast?_map, ← enterBlock_nodes begun, newest]
    rfl
  · rw [encodes₃.drop_graph encodes₄ strokes, loopsAt_iff plain]
    rw [firsts₁, firsts₃] at turns
    refine turns.first (tidy₁.bounded own (List.mem_of_getLast? newest)) fun x hx => ?_
    exact Nat.lt_of_le_of_lt (tidy.firsts_le x hx) new

theorem drawAll_tidy (fs : List Function) (filled : ∀ f ∈ fs, f.Filled)
    (merged : ∀ f ∈ fs, f.body.Merged) {d d' : Sketch} (tidy : d.Tidy)
    (drew : drawAll fs d = some d') : d'.Tidy := by
  induction fs generalizing d with
  | nil =>
      cases drew
      exact tidy
  | cons f fs ih =>
      obtain ⟨filledFirst, filled⟩ := List.forall_mem_cons.mp filled
      obtain ⟨mergedFirst, merged⟩ := List.forall_mem_cons.mp merged
      obtain ⟨d₁, drewFirst, drew⟩ := Option.bind_eq_some_iff.mp drew
      exact ih filled merged (f.counts filledFirst mergedFirst tidy drewFirst).1 drew

theorem Shows.tidy {t : Tree} {fs : List Function} (shown : Shows t fs)
    (filled : ∀ f ∈ fs, f.Filled) {before after : List Event} {h : Head} {us : List Tree}
    (split : t.walk = before ++ .enter h us :: after)
    (compound : h.category ∈ Compound.categories) {b : Builder}
    (passes : Passes before (Builder.new .late) b) :
    ∃ (s : Compound) (d : Sketch), s.Shown h us ∧ d.Encodes b ∧ d.Tidy ∧ s.Filled := by
  obtain ⟨gs, f, rest, d₁, d₂, s, d, rfl, merged, drew, entered, reaches, shows, encodes⟩ :=
    shown.reaches split compound passes
  have tidy₁ :=
    drawAll_tidy gs (fun g hg => filled g (List.mem_append_left _ hg)) merged tidy_empty drew
  obtain ⟨tidy, filled⟩ := reaches.tidy (tidy₁.enterFunction entered).1 (filled f (by simp)).2
  exact ⟨s, d, shows, encodes, tidy, filled⟩

/-- In a source with a run in each block, what is added when an if statement with an else or a loop
is left belongs to the node made when it was entered just if what stands within trades nothing but
the first of the else branch. Where each if statement within has an else block, that is just if
there is no loop within. -/
theorem own_node_iff_traded (t : Tree) (fs : List Function) (shown : Shows t fs)
    (filled : ∀ f ∈ fs, f.Filled) (before : List Event) (h : Head) (us : List Tree)
    (stands : before ++ (Tree.node h us).walk <+: t.walk)
    (done : (Following.go none (Builder.new .late) (before ++ (Tree.node h us).walk)).mishap =
      none) :
    (h.category = .ifStmt → us.length = 5 → ∃ condition yes no own,
      BranchParts us condition yes no ∧
      madeOnEntering before h us = some own ∧
      (ForksAt own (addedOnLeaving before h us) ↔ yes.trade.next no.trade = .push) ∧
      (yes.TwoSided → no.TwoSided →
        (ForksAt own (addedOnLeaving before h us) ↔ yes.loopCount + no.loopCount = 0))) ∧
    (h.category = .forStmt → ∃ keyword condition block body own, us = [keyword, condition, block] ∧
      Block block body ∧ madeOnEntering before h us = some own ∧
      (LoopsAt own (addedOnLeaving before h us) ↔ body.trade = .still) ∧
      (body.TwoSided → (LoopsAt own (addedOnLeaving before h us) ↔ body.loopCount = 0))) := by
  obtain ⟨after, split⟩ := stands
  rw [List.append_assoc] at split
  have passes := passes_built done
  obtain ⟨b, b₁, b₂, first, entering, inside, leaving, made, added⟩ := passes_node passes
  rw [made, added]
  constructor
  · intro category five
    obtain ⟨s, d, shows, encodes, tidy, filled⟩ :=
      shown.tidy filled split.symm (by simp [category, Compound.categories]) first
    have merged := shows.merged inside.fits
    cases shows with
    | loop other => rw [category] at other; cases other
    | @fork _ _ condition yes no _ parts =>
        obtain ⟨d₀, entered, encodes₀⟩ := (parts.enters category).passes encodes entering
        obtain ⟨d₃, drew, encodes₃⟩ := (parts.inside inside.fits).passes encodes₀ inside
        obtain ⟨d₄, left, encodes₄⟩ := (parts.leaves category).passes encodes₃ leaving
        have kind : no.branches = .thenElse := by
          have length := parts.length
          rw [five] at length
          cases kind : no.branches with
          | thenElse => rfl
          | thenOnly => rw [kind] at length; cases length
        obtain ⟨own, newest, iff⟩ :=
          Compound.fork_own tidy filled merged kind entered drew left encodes₀ encodes₃ encodes₄
        refine ⟨condition, yes, no, own, parts, newest, iff, fun sidesYes sidesNo => iff.trans ?_⟩
        cases no with
        | nothing => cases kind
        | elseIf => cases sidesNo
        | block body =>
            rw [Otherwise.trade, yes.twoSided_trade sidesYes, body.twoSided_trade sidesNo]
            simp only [Trade.next, Trade.push, Trade.mk.injEq, Otherwise.loopCount]
            omega
  · intro category
    obtain ⟨s, d, shows, encodes, tidy, filled⟩ :=
      shown.tidy filled split.symm (by simp [category, Compound.categories]) first
    have merged := shows.merged inside.fits
    cases shows with
    | fork other => rw [category] at other; cases other
    | @loop _ keyword condition block body _ plain within =>
        have fits := inside.fits
        simp only [Tree.walkAll, Fits.append] at fits
        obtain ⟨d₀, entered, encodes₀⟩ := (enters_for category).passes encodes entering
        obtain ⟨d₃, drew, encodes₃⟩ :=
          (draws_inside_for plain (within.draws fits.2.2.1)).passes encodes₀ inside
        obtain ⟨d₄, left, encodes₄⟩ := (leaves_for category).passes encodes₃ leaving
        obtain ⟨own, newest, iff⟩ :=
          Compound.loop_own tidy filled merged entered drew left encodes₀ encodes₃ encodes₄
        refine ⟨keyword, condition, block, body, own, rfl, within, newest, iff,
          fun sides => iff.trans ?_⟩
        rw [body.twoSided_trade sides]
        simp [Trade.still]

section

open GoFlow.Tree

def innerLoop : List Tree := [assign "x" "2", forLoop "d" [assign "x" "3"]]

/-- A loop in a loop: the outer one takes the node of the inner one for its own. -/
def nestedLoops : Tree := of .sourceFile [func "f" [assign "x" "1", forLoop "c" innerLoop]]

def nestedLoopsBody : Body :=
  .run "x = 1 \n" (.loop "c" (.run "x = 2 \n" (.loop "d" (.run "x = 3 \n" .done) .done)) .done)

theorem nestedLoops_shows : Shows nestedLoops [⟨"f", nestedLoopsBody⟩] :=
  have inner : Block (braces [assign "x" "3"]) (.run "x = 3 \n" .done) :=
    .braces (.assign "x" "3" .close)
  have outer : Block (braces innerLoop)
      (.run "x = 2 \n" (.loop "d" (.run "x = 3 \n" .done) .done)) :=
    .braces (.assign "x" "2" (.forLoop "d" inner .close))
  .intro rfl (.declares (.func "f" (.braces (.assign "x" "1" (.forLoop "c" outer .close)))) .none)

theorem nestedLoops_mistaken : ∃ body own, Block (braces innerLoop) body ∧ body.trade ≠ .still ∧
    madeOnEntering (nestedLoops.walk.take 23) ⟨.forStmt, none, []⟩
      [word "for", word "c", braces innerLoop] = some own ∧
    ¬ LoopsAt own (addedOnLeaving (nestedLoops.walk.take 23) ⟨.forStmt, none, []⟩
      [word "for", word "c", braces innerLoop]) := by
  have filled : Function.Filled ⟨"f", nestedLoopsBody⟩ := by
    simp [Function.Filled, nestedLoopsBody, Body.hasRun, Body.Filled]
  obtain ⟨keyword, condition, block, body, own, children, shown, made, iff, _⟩ :=
    (own_node_iff_traded nestedLoops [⟨"f", nestedLoopsBody⟩] nestedLoops_shows
      (by simpa using filled)
      (nestedLoops.walk.take 23) ⟨.forStmt, none, []⟩ [word "for", word "c", braces innerLoop]
      ⟨_, rfl⟩ (by decide +kernel)).2 rfl
  cases children
  have outer : madeOnEntering (nestedLoops.walk.take 23) ⟨.forStmt, none, []⟩
      [word "for", word "c", braces innerLoop] = some "l3" := by
    decide +kernel
  have added : addedOnLeaving (nestedLoops.walk.take 23) ⟨.forStmt, none, []⟩
      [word "for", word "c", braces innerLoop] = [.edge "l5:s" "b6:n" [],
        .edge "l5:e" "l5:n" [("headport", "w"), ("tailport", "w")]] := by
    decide +kernel
  cases outer.symm.trans made
  have mistaken : ¬ LoopsAt "l3" (addedOnLeaving (nestedLoops.walk.take 23) ⟨.forStmt, none, []⟩
      [word "for", word "c", braces innerLoop]) := by
    rw [added]
    rintro ⟨⟨_, _, _, same, leaving⟩, _⟩
    cases (List.cons.inj same).1
    exact absurd leaving (by decide +kernel)
  exact ⟨body, "l3", shown, fun still => mistaken (iff.mpr still), made, mistaken⟩

end

end GoFlow
