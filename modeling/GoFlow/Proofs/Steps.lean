import GoFlow.Proofs.Encoding
import GoFlow.Proofs.Wiring

/-! Steps of a sketch from a known state. What a step does depends on the tops of the stacks only;
each statement here says what has to be there, and what the sketch is afterwards. -/

namespace GoFlow

/-- The next node is connected with the ports; then it is on top of the lasts and of the ends, with
what is given below it. -/
def Sketch.Opens (d : Sketch) (ports : List Port) (below under : List Tip) : Prop :=
  ∃ x rest, d.lasts = x :: rest ∧
    ((d.apart x = false ∧ rest = below ∧ ∃ e, d.ends = e :: under ∧ e.ports = ports) ∨
      (d.apart x = true ∧ x.addTo rest = below ∧ d.ends = under ∧ ports = []))

/-- A node more, on top of the lasts and of the ends. -/
def Sketch.putting (s : Spot) (text shape : String) (ports : List Port) (below under : List Tip)
    (d : Sketch) : Sketch :=
  { d with
    count := d.count + 1
    nodes := d.nodes ++ [s]
    lasts := .spot s :: below
    ends := .spot s :: under
    strokes := d.strokes ++ .node s text shape :: into ports s }

namespace Sketch

variable {d : Sketch} {ports : List Port} {below under : List Tip}

theorem Opens.place (h : d.Opens ports below under) (role : Role) (text shape : String) :
    d.place role text shape =
      some (d.putting ⟨role, d.count + 1⟩ text shape ports below under) := by
  obtain ⟨x, rest, lasts, ⟨joined, rfl, e, ends, rfl⟩ | ⟨left, rfl, rfl, rfl⟩⟩ := h
  · rw [Sketch.place, settle_joined (d := d.declare role text shape) _ lasts joined ends]
    simp [putting, declare, into]
  · rw [Sketch.place, settle_apart (d := d.declare role text shape) _ lasts left]
    simp [putting, declare, into]

theorem flush_held (h : d.held = "") : d.flush = some d := by
  rw [flush, if_pos h]

theorem Opens.flush (h : d.Opens ports below under) (text : d.held ≠ "") :
    d.flush = some { d.putting ⟨d.blockRole, d.count + 1⟩ d.held "box" ports below under with
      held := "" } := by
  rw [Sketch.flush, if_neg text, h.place]
  rfl

theorem held_of_flush {d' : Sketch} (h : d.flush = some d') : d'.held = "" := by
  unfold Sketch.flush at h
  split at h
  · rename_i empty
    cases h
    exact empty
  · obtain ⟨_, _, rfl⟩ := Option.map_eq_some_iff.mp h
    rfl

/-- No branch begins at this level. -/
def NoBranchAtLevel (d : Sketch) : Prop := ∀ b ∈ d.branches.head?, b.1 ≠ d.level

theorem NoBranchAtLevel.beginsElse (noBranch : d.NoBranchAtLevel) : d.beginsElse = false := by
  unfold Sketch.beginsElse
  split
  · rename_i level rest y x tips branches ends
    have other : level ≠ d.level := noBranch (level, .thenElse) (by simp [branches])
    simp [other]
  · rfl

theorem opens_joined {x e : Tip} (lasts : d.lasts = x :: below) (ends : d.ends = e :: under)
    (noBranch : d.NoBranchAtLevel) (condition : x.hasRole .condition = false)
    (loop : x.hasRole .loop = false ∨ d.loops.head? ≠ some d.level) :
    d.Opens e.ports below under := by
  refine ⟨x, below, lasts, .inl ⟨?_, rfl, e, ends, rfl⟩⟩
  rw [apart, condition, noBranch.beginsElse]
  rcases loop with h | h <;> simp [h]

theorem opens_condition {c : Spot} {rest : List Tip} (lasts : d.lasts = .spot c :: rest)
    (role : c.role = .condition) : d.Opens [] ((Tip.spot c).addTo rest) d.ends := by
  refine ⟨.spot c, rest, lasts, .inr ⟨?_, rfl, rfl, rfl⟩⟩
  rw [apart,
    show (Tip.spot c).hasRole .condition = true by simp [Tip.spot, Tip.hasRole, Port.spot, role],
    Bool.true_or, Bool.true_or]

/-- The ports of the tip belong to nodes up to the number. -/
def Known (n : Nat) (x : Tip) : Prop := ∀ p ∈ x.ports, p.spot.number ≤ n

theorem addTo_new {x : Tip} {stack : List Tip} {n : Nat} (known : ∀ y ∈ stack, Known n y)
    (new : ∃ p ∈ x.ports, n < p.spot.number) : x.addTo stack = x :: stack := by
  cases stack with
  | nil => rfl
  | cons y ys =>
      obtain ⟨p, hp, less⟩ := new
      have within : Known n y := known y List.mem_cons_self
      have outside : ¬ (y.members.contains x || y == x) = true := by
        simp only [Bool.or_eq_true, List.contains_iff_mem, beq_iff_eq, not_or]
        refine ⟨fun h => ?_, fun h => ?_⟩
        · cases y with
          | port q => cases h
          | group xs =>
              have inside : p ∈ (Tip.group xs).ports := by
                rw [Tip.ports, Tip.portsAll_eq]
                exact List.mem_flatMap.mpr ⟨x, h, hp⟩
              exact absurd (within p inside) (by omega)
        · rw [h] at within
          exact absurd (within p hp) (by omega)
      rw [Tip.addTo, if_neg outside]

theorem addTo_fresh {s : Spot} {stack : List Spot} {n : Nat} (known : ∀ t ∈ stack, t.number ≤ n)
    (new : n < s.number) : s.addTo stack = s :: stack := by
  cases stack with
  | nil => rfl
  | cons t ts =>
      have other : t ≠ s := by
        rintro rfl
        exact absurd (known t List.mem_cons_self) (by omega)
      rw [Spot.addTo, if_neg other]

theorem Opens.enterIf (h : d.Opens ports below under) (held : d.held = "")
    (firsts : ∀ s ∈ d.firsts, s.number ≤ d.count) (condition : String) (kind : Branches) :
    d.enterIf condition kind = some
      { d.putting ⟨.condition, d.count + 1⟩ condition "diamond" ports below under with
        firsts := ⟨.condition, d.count + 1⟩ :: d.firsts
        branches := (d.level, kind) :: d.branches } := by
  rw [Sketch.enterIf, flush_held held]
  change (d.place _ _ _).bind _ = _
  rw [h.place, ← addTo_fresh (s := ⟨.condition, d.count + 1⟩) firsts (by simp)]
  rfl

theorem Opens.enterFor (h : d.Opens ports below under) (held : d.held = "") (condition : String) :
    d.enterFor condition = some
      { d.putting ⟨.loop, d.count + 1⟩ ("for " ++ condition) "egg" ports below under with
        loops := ((d.count + 1 : Nat) : Int) :: d.loops } := by
  rw [Sketch.enterFor, flush_held held]
  change (d.place _ _ _).bind _ = _
  rw [h.place]
  rfl

/-- The node made after a node in the middle of the nodes. -/
theorem next?_middle (before after : List Spot) {s t : Spot}
    (nodes : d.nodes = before ++ s :: t :: after)
    (rising : d.nodes.Pairwise fun s t => s.number < t.number) : d.next? s = some t := by
  have absent : s ∉ before := by
    intro member
    rw [nodes, List.pairwise_append] at rising
    exact absurd (rising.2.2 s member s List.mem_cons_self) (Nat.lt_irrefl _)
  rw [next?, nodes, List.idxOf_append_of_notMem absent, List.idxOf_cons_self, Nat.add_zero,
    List.getElem?_append_right (Nat.le_succ _)]
  simp

theorem leaveIfElse_eq {n c e t : Spot} {rest : List Spot} {no yes x y z : Tip}
    {lasts ends : List Tip} (firsts : d.firsts = n :: c :: rest) (nextElse : d.next? n = some e)
    (nextThen : d.next? c = some t) (hlasts : d.lasts = no :: yes :: lasts)
    (hends : d.ends = x :: y :: z :: ends) :
    d.leaveIfElse = some { d with
      firsts := rest
      lasts := (Tip.group [yes, no]).addTo (lasts.erase yes)
      ends := yes.join no :: ends
      strokes := d.strokes ++
        [.edge (.south c) t [("label", "true"), ("headport", "n"), ("tailport", "w")],
          .edge (.south c) e [("label", "false"), ("headport", "n"), ("tailport", "e")]] } := by
  have steps : d.leaveIfElse = (d.next? n).bind fun e => (d.next? c).bind fun t => some { d with
      firsts := rest
      lasts := (Tip.group [yes, no]).addTo (lasts.erase yes)
      ends := yes.join no :: ends
      strokes := d.strokes ++
        [.edge (.south c) t [("label", "true"), ("headport", "n"), ("tailport", "w")]] ++
        [.edge (.south c) e [("label", "false"), ("headport", "n"), ("tailport", "e")]] } := by
    obtain ⟨_, _, _, nodes, _, _, _, _, _, _⟩ := d
    subst firsts hlasts hends
    rfl
  rw [steps, nextElse, Option.bind_some, nextThen, Option.bind_some, List.append_assoc]
  rfl

theorem leaveIfThen_eq {n c e t : Spot} {rest : List Spot} {yes x y : Tip} {lasts ends : List Tip}
    (firsts : d.firsts = n :: c :: rest) (passed : d.next? n = some e)
    (nextThen : d.next? c = some t) (hlasts : d.lasts = yes :: lasts)
    (hends : d.ends = x :: y :: ends) :
    d.leaveIfThen = some { d with
      firsts := rest
      lasts := yes.addTo (lasts.erase yes)
      ends := .group [.port (.east c), yes] :: ends
      strokes := d.strokes ++ [.edge (.south c) t [("label", "true")]] } := by
  have steps : d.leaveIfThen = (d.next? n).bind fun _ => (d.next? c).bind fun t => some { d with
      firsts := rest
      lasts := yes.addTo (lasts.erase yes)
      ends := .group [.port (.east c), yes] :: ends
      strokes := d.strokes ++ [.edge (.south c) t [("label", "true")]] } := by
    obtain ⟨_, _, _, nodes, _, _, _, _, _, _⟩ := d
    subst firsts hlasts hends
    rfl
  rw [steps, passed, Option.bind_some, nextThen, Option.bind_some]

theorem leaveFor_eq {s first : Spot} {n : Int} {loops : List Int} {rest : List Spot}
    {last x : Tip} {lasts ends : List Tip} (hloops : d.loops = n :: loops)
    (hfirsts : d.firsts = s :: rest) (next : d.next? s = some first)
    (hlasts : d.lasts = last :: lasts) (hends : d.ends = x :: ends) :
    d.leaveFor = some
      (let d := closeLoop last s { d with
        loops
        firsts := rest
        lasts := lasts.erase last
        strokes := d.strokes ++ [.edge (.south s) first []] }
      { d with
        firsts := s.addTo rest
        lasts := (Tip.port (.east s)).addTo (lasts.erase last)
        ends := .port (.east s) :: ends }) := by
  obtain ⟨_, _, _, nodes, _, _, _, _, _, _⟩ := d
  subst hloops hfirsts hlasts hends
  simp only [next?] at next
  simp only [leaveFor, popLoop, popFirst, popLast, next?, next, Option.bind_eq_bind,
    Option.bind_some]
  cases last <;> rfl

end Sketch

end GoFlow
