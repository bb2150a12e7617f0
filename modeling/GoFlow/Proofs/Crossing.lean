import GoFlow.Proofs.Sides

/-! Edges across an if statement. An else block is recognized by the level and by the condition
below the top of the ends. That fails for the first node of an else block which is more than a run,
and for a then block that goes on with a run after an if statement: then an edge leads from the then
block to the else block. -/

namespace GoFlow

open Dot (Statement endNode)
open Move Builder Sketch

mutual

/-- Each if statement has an else block, and neither of its blocks is empty. Loops stand where they
are allowed, outside if statements, and are not empty. -/
def Body.Forked (loops : Bool) : Body → Prop
  | .done => True
  | .run _ rest => rest.Forked loops
  | .branch _ yes no rest => (yes.Forked false ∧ yes ≠ .done) ∧ no.Forked ∧ rest.Forked loops
  | .loop _ body rest => loops = true ∧ (body.Forked loops ∧ body ≠ .done) ∧ rest.Forked loops

def Otherwise.Forked : Otherwise → Prop
  | .nothing => False
  | .block body => body.Forked false ∧ body ≠ .done
  | .elseIf _ _ _ => False

end

/-- While a block with the body is drawn, the sketch becomes another one. -/
inductive Body.PartlyDraws (b : Body) (d : Sketch) : Sketch → Prop
  | whole {d' : Sketch} (drew : b.drawBlock d = some d') : Body.PartlyDraws b d d'
  | inside {d₁ d' e : Sketch} {condition : String} {yes : Body} {no : Otherwise}
      (begun : d.enterBlock = some d₁)
      (reaches : b.Reaches d₁ (.fork condition yes no) e)
      (entered : e.enterIf condition no.branches = some d') : Body.PartlyDraws b d d'

/-- While the else block of the if statement is drawn, an edge is drawn from its then block. -/
def Compound.Crossed (e : Sketch) : Compound → Prop
  | .fork condition yes (.block no) => ∃ d₁ d₂ d₃ p t a,
      (e.enterIf condition .thenElse).bind enterBlock = some d₁ ∧ yes.finish d₁ = some d₂ ∧
      no.PartlyDraws d₂ d₃ ∧
      (p.spot ∈ d₂.nodes ∧ p.spot ∉ d₁.nodes) ∧ (t ∈ d₃.nodes ∧ t ∉ d₂.nodes) ∧
      .edge p t a ∈ d₃.strokes
  | _ => False

theorem Compound.Crossed.alike {s : Compound} {e e₁ : Sketch} (crossed : s.Crossed e)
    (same : Alike e₁ e) : s.Crossed e₁ := by
  cases s with
  | fork condition yes no =>
      cases no with
      | block no =>
          obtain ⟨d₁, d₂, d₃, p, t, a, entered, rest⟩ := crossed
          exact ⟨d₁, d₂, d₃, p, t, a, by rw [same.enterIf]; exact entered, rest⟩
      | nothing => exact crossed
      | elseIf => exact crossed
  | loop => exact crossed

namespace Sketch

variable {d d' d₂ d₃ : Sketch} {ports : List Port} {below under : List Tip} {no : Body} {q : Port}
  {t : Spot}

theorem mem_firsts_addTo {s : Spot} {stack : List Spot} (member : t ∈ s.addTo stack) :
    t = s ∨ t ∈ stack := by
  cases stack with
  | nil => exact .inl (List.mem_singleton.mp member)
  | cons u us =>
      rw [Spot.addTo] at member
      split at member
      · exact .inr member
      · exact List.mem_cons.mp member

theorem joined_of_drawn {text : String}
    (drawn : Drawn (.block t text .done) ports d.drawing d'.drawing) (before : q ∈ ports) :
    t ∈ d'.nodes ∧ d.count < t.number ∧ .edge q t [] ∈ d'.strokes := by
  have nodes : d'.nodes = d.nodes ++ [t] := drawn.nodes
  refine ⟨nodes ▸ List.mem_append_right _ (List.mem_singleton_self t),
    (drawn.numbers.bounds List.mem_cons_self).1, ?_⟩
  refine (drawn.strokes _).mpr (.inr (List.mem_cons_of_mem _ (List.mem_append_left _ ?_)))
  exact List.mem_map_of_mem before

theorem Opens.partlyDraws (opens : d₃.Opens ports below under) (begun : d₂.enterBlock = some d₃)
    (held : d₃.held = "") (firsts : ∀ s ∈ d₃.firsts, s.number ≤ d₃.count)
    (forked : no.Forked false) (nonempty : no ≠ .done) (merged : no.Merged)
    (single : no.IsRun → d₃.lower.Opens ports below under) (before : q ∈ ports) :
    ∃ d' t, no.PartlyDraws d₂ d' ∧ t ∈ d'.nodes ∧ d₃.count < t.number ∧
      .edge q t [] ∈ d'.strokes := by
  cases no with
  | done => exact absurd rfl nonempty
  | run text rest =>
      cases rest with
      | done =>
          obtain ⟨t, d', flushed, drawn, _⟩ := (single ⟨text, rfl⟩).drawsRun held merged.1
          have drew : (Body.run text .done).finish d₃ = some d' :=
            (finish_single d₃ text).trans flushed
          exact ⟨d', t, .whole (Option.bind_eq_some_iff.mpr ⟨d₃, begun, drew⟩),
            joined_of_drawn drawn before⟩
      | run text' rest => exact absurd rfl (merged.2.1 text' rest)
      | branch condition yes otherwise rest =>
          obtain ⟨t, d₄, flushed, drawn, frame, endsAt⟩ := opens.drawsRun held merged.1
          obtain ⟨node, new, edge⟩ := joined_of_drawn drawn before
          obtain ⟨_, lasts, _⟩ := endsAt.last
          obtain ⟨_, ends, _⟩ := endsAt.tail
          obtain ⟨_, _, opens₄, _⟩ := opens_opening lasts ends
          have count : d₄.count = d₃.count + 1 := drawn.count
          have entered := opens₄.enterIf frame.held (fun s hs => by
            have := firsts s (frame.firsts ▸ hs)
            omega) condition otherwise.branches
          rw [← (alike_of_flush flushed).enterIf] at entered
          exact ⟨_, t, .inside begun (.run (.branch (.here _ _))) entered,
            List.mem_append_left _ node, new, List.mem_append_left _ edge⟩
      | loop => exact absurd forked.1 (by decide)
  | branch condition yes otherwise rest =>
      have entered := opens.enterIf held firsts condition otherwise.branches
      exact ⟨_, _, .inside begun (.branch (.here _ _)) entered,
        List.mem_append_right _ (List.mem_singleton_self _),
        Nat.lt_succ_self _,
        List.mem_append_right _ (List.mem_cons_of_mem _ (List.mem_map_of_mem before))⟩
  | loop => exact absurd forked.1 (by decide)

/-- After a then block an edge will lead from its end to the else block, unless the else block is a
single run and is recognized. -/
theorem EndsAt.crossed {condition : String} {yes : Body} {e d₁ : Sketch}
    {rest : List (Int × Branches)} (endsAt : d₂.EndsAt ports below under)
    (entered : (e.enterIf condition .thenElse).bind enterBlock = some d₁)
    (finished : yes.finish d₁ = some d₂) (held : d₂.held = "") (sorted : d₂.Sorted)
    (branches : d₂.branches = (d₂.level, .thenElse) :: rest) (forked : no.Forked false)
    (nonempty : no ≠ .done) (merged : no.Merged)
    (single : no.IsRun → ∃ x tips, under = x :: tips ∧ x.hasRole .condition = false)
    (before : q ∈ ports) (made : q.spot ∈ d₂.nodes) (inThen : q.spot ∉ d₁.nodes) :
    (Compound.fork condition yes (.block no)).Crossed e := by
  obtain ⟨x, lasts, _, notCondition, notLoop⟩ := endsAt.last
  obtain ⟨tail, ends, hports⟩ := endsAt.tail
  obtain ⟨n, newest, statement, onTop⟩ := endsAt.newest
  obtain ⟨d₃, hd₃⟩ : ∃ d₃ : Sketch,
    d₃ = { d₂ with level := d₂.level + 1, firsts := n.addTo d₂.firsts } := ⟨_, rfl⟩
  have begun : d₂.enterBlock = some d₃ := by
    rw [enterBlock, newest, Option.map_some, if_neg statement, onTop, hd₃]
  have noBranchAtLevel : d₃.NoBranchAtLevel := by
    intro b hb
    rw [hd₃] at hb ⊢
    rw [branches] at hb
    cases hb
    change d₂.level ≠ d₂.level + 1
    omega
  have opens : d₃.Opens ports below under := by
    rw [← hports]
    exact opens_joined (by rw [hd₃]; exact lasts)
      (by rw [hd₃]; exact ends) noBranchAtLevel notCondition (.inl notLoop)
  have bounded : ∀ s ∈ d₃.firsts, s.number ≤ d₃.count := by
    rw [hd₃]
    intro s hs
    rcases mem_firsts_addTo hs with rfl | old
    · exact sorted.bounded s (List.mem_of_getLast? newest)
    · exact sorted.firsts s old
  -- At the level of the if statement, what lies below the top of the ends is no condition.
  have recognized (run : no.IsRun) : d₃.lower.Opens ports below under := by
    obtain ⟨y, tips, rfl, other⟩ := single run
    refine ⟨x, below, by rw [hd₃]; exact lasts,
      .inl ⟨?_, rfl, tail, by rw [hd₃]; exact ends, hports⟩⟩
    have beginsElse : d₃.lower.beginsElse = false := by
      have hb : d₃.lower.branches = (d₂.level, .thenElse) :: rest := by rw [hd₃]; exact branches
      have he : d₃.lower.ends = tail :: y :: tips := by rw [hd₃]; exact ends
      simp [Sketch.beginsElse, hb, he, other]
    rw [apart, notCondition, notLoop, beginsElse]
    simp
  obtain ⟨d', t, partly, node, new, edge⟩ :=
    opens.partlyDraws begun (by rw [hd₃]; exact held) bounded forked nonempty merged
      recognized before
  have count : d₃.count = d₂.count := by rw [hd₃]
  refine ⟨d₁, d₂, d', q, t, [], entered, finished, partly, ⟨made, inThen⟩,
    ⟨node, fun old => ?_⟩, edge⟩
  have := sorted.bounded t old
  omega

theorem hasRole_of_several {x : Tip} (several : 2 ≤ x.ports.length) (role : Role) :
    x.hasRole role = false := by
  cases x with
  | port p => exact absurd several (by simp [Tip.ports])
  | group xs => rfl

/-- A run after an if statement that ends a then block is not connected with the statement. -/
theorem EndsAt.drawsTrailing {c : Spot} {rest : List (Int × Branches)} {text : String}
    (endsAt : d.EndsAt ports below (.spot c :: under)) (held : d.held = "")
    (branches : d.branches = (d.level - 1, .thenElse) :: rest) (role : c.role = .condition)
    (several : 2 ≤ ports.length) (filled : text ≠ "") :
    ∃ t g d' below', (Body.run text .done).finish d = some d' ∧
      d'.EndsAt [.south t] below' (g :: .spot c :: under) ∧
      g.hasRole .condition = false ∧ Frame (d.level - 1) d d' ∧
      Drawn (.block t text .done) [] d.drawing d'.drawing := by
  obtain ⟨x, lasts, _⟩ := endsAt.last
  obtain ⟨g, ends, hports⟩ := endsAt.tail
  have begins : d.lower.beginsElse = true := by
    have hb : d.lower.branches = (d.level - 1, .thenElse) :: rest := branches
    have he : d.lower.ends = g :: .spot c :: under := ends
    have hl : d.lower.level = d.level - 1 := rfl
    simp [beginsElse, hb, he, hl, Tip.spot, Tip.hasRole, Port.spot, role]
  have opens : d.lower.Opens [] (x.addTo below) (g :: .spot c :: under) := by
    refine ⟨x, below, lasts, .inr ⟨?_, rfl, ends, rfl⟩⟩
    rw [apart, begins, Bool.or_true, Bool.true_or]
  obtain ⟨t, d', flushed, drawn, frame, endsAt'⟩ := opens.drawsRun held filled
  exact ⟨t, g, d', _, (finish_single d text).trans flushed, endsAt',
    hasRole_of_several (hports ▸ several) _,
    ⟨frame.held, frame.level, frame.branches, frame.loops, frame.firsts⟩, drawn⟩

end Sketch

/-- A run that ends a then block after an if statement is taken for the else block: it is put on top
of the ends, with the end of the if statement and not the condition below it. -/
theorem Body.trails :
    (b : Body) → b.Structured false → b.Merged → b.endsInBranch = false → ¬ b.IsRun → b ≠ .done →
    ∀ (d : Sketch) (ports : List Port) (below under : List Tip) (c : Spot)
      (rest : List (Int × Branches)),
      d.Ready ports below (.spot c :: under) → c.role = .condition →
      d.branches = (d.level - 1, .thenElse) :: rest →
      ∃ d' t g below', b.finish d = some d' ∧ d'.EndsAt [.south t] below' (g :: .spot c :: under) ∧
        g.hasRole .condition = false ∧ Sketch.Frame (d.level - 1) d d' ∧ d'.Sorted ∧ t ∈ d'.nodes ∧
        d.count < t.number
  | .done, _, _, _, _, nonempty => absurd rfl nonempty
  | .run text rest, structured, merged, noBranch, single, _ => by
      intro d ports below under c branches ready role hbranches
      have last : rest ≠ .done := by
        rintro rfl
        exact single ⟨text, rfl⟩
      obtain ⟨s, d₁, flushed, drawn, frame, endsAt⟩ := ready.opens.drawsRun ready.held merged.1
      have count : d₁.count = d.count + 1 := drawn.count
      have ready₁ :=
        endsAt.ready ready drawn frame fun y hy => known_mono (ready.known y hy) (by omega)
      have single : ¬ rest.IsRun := by
        rintro ⟨text', rfl⟩
        exact merged.2.1 text' .done rfl
      obtain ⟨d', t, g, below', finished, endsAt', group, frame', sorted, made, new⟩ :=
        rest.trails structured merged.2.2 noBranch single last d₁ _ _ _ c branches ready₁ role
          (by rw [frame.branches, frame.level, hbranches])
      refine ⟨d', t, g, below', ?_, endsAt', group, ?_, sorted, made, by omega⟩
      · rw [finish_run text rest last merged, flushed]
        exact finished
      · rw [frame.level] at frame'
        exact frame.trans frame'
  | .branch condition yes no rest, structured, merged, noBranch, _, _ => by
      obtain ⟨⟨structuredYes, shapeYes⟩, ⟨text, rfl⟩, structured⟩ := structured
      obtain ⟨mergedYes, mergedNo, merged⟩ := merged
      intro d ports below under c branches ready role hbranches
      obtain ⟨c', p, e, d₁, drew, _, drawn, frame, below₁, endsAt, headed, known, _⟩ :=
        ready.drawsIf (yes.drawsAsPlan structuredYes mergedYes) shapeYes mergedNo.1 condition
      have ready₁ := endsAt.ready ready drawn frame known
      have count : d₁.count = d.count + _ := drawn.count
      have branches₁ : d₁.branches = (d₁.level - 1, .thenElse) :: branches := by
        rw [frame.branches, frame.level, hbranches]
      have last : rest ≠ .done := by
        rintro rfl
        cases noBranch
      have several : 2 ≤ (p.exits [] ++ [Port.south e]).length := by
        have exits : p.exits [] ≠ [] := Plan.exits_ne_nil drawn.solid.2.2.2.1 drawn.solid.2.1
        have := List.length_pos_iff.mpr exits
        rw [List.length_append, List.length_singleton]
        omega
      rw [finish_branch, drew, Option.bind_some]
      by_cases single : rest.IsRun
      · obtain ⟨text', rfl⟩ := single
        obtain ⟨t, g, d', below', finished, endsAt', group, frame', drawn'⟩ :=
          endsAt.drawsTrailing ready₁.held branches₁ role several merged.1
        rw [frame.level] at frame'
        have new : d₁.count < t.number := (drawn'.numbers.bounds List.mem_cons_self).1
        have nodes : d'.nodes = d₁.nodes ++ [t] := drawn'.nodes
        exact ⟨d', t, g, _, finished, endsAt', group, frame.trans frame',
          ready₁.sorted.drawn drawn' frame'.firsts,
          nodes ▸ List.mem_append_right _ (List.mem_singleton_self t), by omega⟩
      · rw [endsInBranch_branch last] at noBranch
        obtain ⟨d', t, g, below', finished, endsAt', group, frame', sorted, made, new⟩ :=
          rest.trails structured merged noBranch single last d₁ _ _ _ c branches ready₁
            role branches₁
        rw [frame.level] at frame'
        exact ⟨d', t, g, below', finished, endsAt', group, frame.trans frame', sorted,
          made, by omega⟩
  | .loop _ _ _, structured, _, _, _, _ => absurd structured.1 (by decide)

/-- Wherever the body is drawn inside an if statement, drawing comes to an if statement that is
crossed. -/
def Body.Crossing (b : Body) : Prop :=
  ∀ (d : Sketch) (ports : List Port) (below under : List Tip), d.Ready ports below under →
    ∃ s e, b.Reaches d s e ∧ s.Crossed e

section

variable {d : Sketch} {ports : List Port} {below under : List Tip} {yes no : Body}
  {condition : String}

theorem Sketch.Ready.crossesIf (ready : d.Ready ports below under) (nonemptyYes : yes ≠ .done)
    (mergedYes : yes.Merged) (forked : no.Forked false) (nonempty : no ≠ .done) (merged : no.Merged)
    (inside : ¬ yes.Structured false → yes.Crossing)
    (wrong : ¬ ((yes.Structured false ∧ (yes.IsRun ∨ yes.endsInBranch = true)) ∧ no.IsRun)) :
    ∃ s e, (Compound.fork condition yes (.block no)).Reaches d s e ∧ s.Crossed e := by
  by_cases structured : yes.Structured false
  · refine ⟨_, d, .here _ d, ?_⟩
    have asPlan := yes.drawsAsPlan structured mergedYes
    by_cases shape : yes.IsRun ∨ yes.endsInBranch = true
    · obtain ⟨c, p, d₂, d₃, below₃, entered, finished, _, after⟩ :=
        ready.drawsThen asPlan shape condition
      obtain ⟨q, exit⟩ :=
        List.exists_mem_of_ne_nil (p.exits []) (Plan.exits_ne_nil after.drawn.solid after.nonempty)
      have nodes : d₃.nodes = d₂.nodes ++ p.spots := after.drawn.nodes
      have made := Plan.exits_mem_spots after.nonempty exit
      have rising := after.sorted.rising
      rw [nodes] at rising
      refine after.endsAt.crossed entered finished after.held after.sorted after.branches forked
        nonempty merged
        (fun single => absurd ⟨⟨structured, shape⟩, single⟩ wrong) exit
        (nodes ▸ List.mem_append_right _ made) fun old => ?_
      exact Nat.lt_irrefl _ ((List.pairwise_append.mp rising).2.2 _ old _ made)
    · obtain ⟨c, d₂, entered, hc, ready₂, _, drawing₂, level₂, branches₂, _⟩ :=
        ready.enterThen condition .thenElse
      obtain ⟨noRun, noBranch⟩ := not_or.mp shape
      obtain ⟨d₃, t, g, below₃, finished, endsAt, group, frame, sorted, made, new⟩ :=
        yes.trails structured mergedYes (Bool.eq_false_of_not_eq_true noBranch) noRun nonemptyYes d₂
          _ _ _ c d.branches ready₂ (by rw [hc]) (by rw [branches₂, level₂, Int.add_sub_cancel])
      have branches₃ : d₃.branches = (d₃.level, .thenElse) :: d.branches := by
        rw [frame.branches, frame.level, branches₂, level₂, Int.add_sub_cancel]
      refine endsAt.crossed entered finished frame.held sorted branches₃ forked nonempty merged
        (fun _ => ⟨g, _, rfl, group⟩) (List.mem_singleton_self _) made fun old => ?_
      exact absurd (ready₂.sorted.bounded t old) (Nat.not_le.mpr new)
  · obtain ⟨c, d₂, entered, _, ready₂, _⟩ := ready.enterThen condition .thenElse
    obtain ⟨s, e, reaches, crossed⟩ := inside structured d₂ _ _ _ ready₂
    exact ⟨s, e, .yes entered reaches, crossed⟩

end

theorem Otherwise.Forked.block {no : Otherwise} (forked : no.Forked) :
    ∃ body, no = .block body ∧ body.Forked false ∧ body ≠ .done := by
  cases no with
  | block body => exact ⟨body, rfl, forked⟩
  | nothing => exact forked.elim
  | elseIf => exact forked.elim

namespace Body

theorem crossing : (b : Body) → b.Forked false → b.Merged → ¬ b.Structured false → b.Crossing
  | .done, _, _, wrong => absurd trivial wrong
  | .run text rest, forked, merged, wrong => by
      intro d ports below under ready
      obtain ⟨s, d₁, flushed, drawn, frame, endsAt⟩ := ready.opens.drawsRun ready.held merged.1
      have count : d₁.count = d.count + 1 := drawn.count
      have ready₁ :=
        endsAt.ready ready drawn frame fun y hy => known_mono (ready.known y hy) (by omega)
      obtain ⟨s, e, reaches, crossed⟩ := rest.crossing forked merged.2.2 wrong d₁ _ _ _ ready₁
      obtain ⟨e₁, reaches, same⟩ := reaches.alike merged.2.1 (alike_of_flush flushed).symm
      exact ⟨s, e₁, .run reaches, crossed.alike same.symm⟩
  | .branch condition yes no rest, forked, merged, wrong => by
      obtain ⟨⟨forkedYes, nonemptyYes⟩, forkedNo, forked⟩ := forked
      obtain ⟨no, rfl, forkedNo, nonemptyNo⟩ := forkedNo.block
      obtain ⟨mergedYes, mergedNo, merged⟩ := merged
      intro d ports below under ready
      by_cases right : (yes.Structured false ∧ (yes.IsRun ∨ yes.endsInBranch = true)) ∧ no.IsRun
      · obtain ⟨⟨structuredYes, shapeYes⟩, text, rfl⟩ := right
        obtain ⟨c, p, x, d₁, drew, _, drawn, frame, below₁, endsAt, _, known, _⟩ :=
          ready.drawsIf (yes.drawsAsPlan structuredYes mergedYes) shapeYes mergedNo.1 condition
        have wrongRest : ¬ rest.Structured false := fun structured =>
          wrong ⟨⟨structuredYes, shapeYes⟩, ⟨text, rfl⟩, structured⟩
        obtain ⟨s, e, reaches, crossed⟩ :=
          rest.crossing forked merged wrongRest d₁ _ _ _ (endsAt.ready ready drawn frame known)
        exact ⟨s, e, .afterBranch ⟨mergedYes, mergedNo⟩ drew reaches, crossed⟩
      · obtain ⟨s, e, reaches, crossed⟩ :=
          ready.crossesIf nonemptyYes mergedYes forkedNo nonemptyNo mergedNo
            (yes.crossing forkedYes mergedYes) right
        exact ⟨s, e, .branch reaches, crossed⟩
  | .loop _ _ _, forked, _, _ => absurd forked.1 (by decide)

theorem layered_crossing :
    (b : Body) → b.Forked true → b.Merged → ¬ b.Layered → ∀ {d : Sketch}, d.Outside →
    ∃ s e, b.Reaches d s e ∧ s.Crossed e
  | .done, _, _, wrong, _, _ => absurd trivial wrong
  | .run text rest, forked, merged, wrong, d, outside => by
      obtain ⟨d₁, flushed, _, adds, _⟩ := outside.drawsRun merged.1
      obtain ⟨s, e, reaches, crossed⟩ := rest.layered_crossing forked merged.2.2 wrong adds.outside
      obtain ⟨e₁, reaches, same⟩ := reaches.alike merged.2.1 (alike_of_flush flushed).symm
      exact ⟨s, e₁, .run reaches, crossed.alike same.symm⟩
  | .branch condition yes no rest, forked, merged, wrong, d, outside => by
      obtain ⟨⟨forkedYes, nonemptyYes⟩, forkedNo, forked⟩ := forked
      obtain ⟨no, rfl, forkedNo, nonemptyNo⟩ := forkedNo.block
      obtain ⟨mergedYes, mergedNo, merged⟩ := merged
      by_cases right : (yes.Structured false ∧ (yes.IsRun ∨ yes.endsInBranch = true)) ∧ no.IsRun
      · obtain ⟨⟨structuredYes, shapeYes⟩, text, rfl⟩ := right
        obtain ⟨d₁, drew, _, adds, _⟩ :=
          outside.drawsBranch (yes.drawsAsPlan structuredYes mergedYes) shapeYes
            mergedNo.1 condition
        have wrongRest : ¬ rest.Layered :=
          fun layered => wrong ⟨⟨structuredYes, shapeYes⟩, ⟨text, rfl⟩, layered⟩
        obtain ⟨s, e, reaches, crossed⟩ :=
          rest.layered_crossing forked merged wrongRest adds.outside
        exact ⟨s, e, .afterBranch ⟨mergedYes, mergedNo⟩ drew reaches, crossed⟩
      · obtain ⟨_, _, ready, _⟩ := outside.ready
        obtain ⟨s, e, reaches, crossed⟩ :=
          ready.crossesIf nonemptyYes mergedYes forkedNo nonemptyNo mergedNo
          (yes.crossing forkedYes mergedYes) right
        exact ⟨s, e, .branch reaches, crossed⟩
  | .loop condition body rest, forked, merged, wrong, d, outside => by
      obtain ⟨_, ⟨forkedBody, nonempty⟩, forked⟩ := forked
      obtain ⟨mergedBody, merged⟩ := merged
      by_cases layered : body.Layered
      · obtain ⟨d₁, drew, _, adds, _⟩ :=
          drawsLoop (body.layers layered mergedBody nonempty) layered mergedBody nonempty condition
            rest outside
        have wrongRest : ¬ rest.Layered := fun rest => wrong ⟨⟨layered, nonempty⟩, rest⟩
        obtain ⟨s, e, reaches, crossed⟩ :=
          rest.layered_crossing forked merged wrongRest adds.outside
        exact ⟨s, e, .afterLoop mergedBody drew reaches, crossed⟩
      · obtain ⟨_, d₁, entered, block⟩ := outside.entersLoop condition
        obtain ⟨s, e, reaches, crossed⟩ :=
          body.layered_crossing forkedBody mergedBody layered block.outside
        exact ⟨s, e, .loop (.body entered reaches), crossed⟩

end Body

/-- What a block comes to while it is drawn, it comes to while it is walked. -/
theorem Block.partlyWalks {t : Tree} {body : Body} (shown : Block t body) (fits : Fits t.walk)
    {d d' : Sketch} (partly : body.PartlyDraws d d') {b : Builder} (encodes : d.Encodes b) :
    ∃ es c, es <+: t.walk ∧ Passes es b c ∧ d'.Encodes c := by
  cases partly with
  | whole drew =>
      obtain ⟨c, passes, encodes'⟩ := (shown.draws fits).follows encodes drew
      exact ⟨t.walk, c, List.prefix_rfl, passes, encodes'⟩
  | inside begun reaches entered =>
      obtain ⟨before, h, us, after, m, split, shownHere, passes, encodes₁⟩ :=
        shown.met fits begun reaches encodes
      obtain ⟨category, parts⟩ := shownHere
      obtain ⟨c, entering, encodes'⟩ := (parts.enters category).follows encodes₁ entered
      refine ⟨before ++ [.enter h us], c, ?_, passes_append.mpr ⟨m, passes, entering⟩, encodes'⟩
      rw [split]
      exact (List.prefix_append_right_inj before).mpr
        (List.cons_prefix_cons.mpr ⟨rfl, List.nil_prefix⟩)

theorem Compound.Crossed.crosses {h : Head} {keyword condition block marker other : Tree}
    {yes no : Body} {e : Sketch}
    (crossed : (Compound.fork condition.text yes (.block no)).Crossed e)
    (category : h.category = .ifStmt) (plain : ∀ t ∈ [keyword, condition, marker], t.Plain)
    (first : Block block yes) (second : Block other no)
    (fits : Fits (Tree.node h [keyword, condition, block, marker, other]).walk)
    {before : List Event} {b : Builder} (passes : Passes before (Builder.new .late) b)
    (encodes : e.Encodes b) :
    ∃ es, es <+: before ++ (Tree.node h [keyword, condition, block, marker, other]).walk ∧
      Crosses (built es).graph before h [keyword, condition, block, marker, other] := by
  obtain ⟨d₁, d₂, d₃, p, t, a, entered, finished, partly, ⟨tail, inThen⟩, ⟨head, inElse⟩, edge⟩ :=
    crossed
  have inner := fits.node
  simp only [Tree.walkAll, Fits.append] at inner
  obtain ⟨m, encodes₂, passes₂, declared⟩ :=
    (BranchParts.withElse plain first second).declaredInThen category
      inner.2.2.1 passes encodes entered finished
  obtain ⟨es, c, initial, walked, encodes₃⟩ := second.partlyWalks inner.2.2.2.2.1 partly encodes₂
  have whole := passes_append.mpr ⟨m, passes₂, walked⟩
  obtain ⟨there, new⟩ :=
    (mem_declared_iff encodes₂ encodes₃ passes₂ walked).mpr ⟨t, head, inElse, rfl⟩
  refine ⟨before ++ .enter h [keyword, condition, block, marker, other] ::
    Tree.walkAll [keyword, condition, block, marker] ++ es, ?_, keyword, condition, block, marker,
    other, p.tail, t.name ++ ":" ++ "n", a, rfl, ?_, ?_, ?_⟩
  · have split : (Tree.node h [keyword, condition, block, marker, other]).walk =
        .enter h [keyword, condition, block, marker, other] ::
          Tree.walkAll [keyword, condition, block, marker] ++
          (other.walk ++ [.leave h [keyword, condition, block, marker, other]]) := by
      simp [Tree.walk, Tree.walkAll]
    rw [split, ← List.append_assoc]
    exact (List.prefix_append_right_inj _).mpr (initial.trans (List.prefix_append _ _))
  · rw [whole.built, encodes₃.graph]
    exact edge_mem_statements.mpr ⟨p, t, edge, rfl, rfl⟩
  · rw [endNode_tail]
    exact (declared _).mpr ⟨p.spot, tail, inThen, rfl⟩
  · rw [endNode_head]
    exact ⟨declared_mono ((List.prefix_append_right_inj _).mpr initial) there, new⟩

theorem Shows.crossed {t : Tree} {gs rest : List Function} {f : Function}
    (shown : Shows t (gs ++ f :: rest)) (fits : Fits t.walk) (layered : ∀ g ∈ gs, g.body.Layered)
    (wrong : ¬ f.body.Layered) (forked : f.body.Forked true) :
    ∃ es before h us, es <+: t.walk ∧ before ++ (Tree.node h us).walk <+: t.walk ∧
      h.category = .ifStmt ∧
      Crosses (built es).graph before h us := by
  have merged := shown.merged fits
  simp only [List.forall_mem_append, List.forall_mem_cons] at merged
  obtain ⟨d, drew, idle, _⟩ := layers_all gs layered merged.1 (.inl rfl)
  obtain ⟨_, d₀, entered, inside⟩ := enters_idle (idle.imp And.right And.left) f.name
  obtain ⟨s, e, reaches, crossed⟩ := f.body.layered_crossing forked merged.2.1 wrong inside.outside
  obtain ⟨before, h, us, after, b, split, shownHere, passes, encodes⟩ :=
    shown.met fits drew entered reaches
  have stands := t.walk_node split
  cases shownHere with
  | loop => exact crossed.elim
  | fork category parts =>
      cases parts with
      | bare => exact crossed.elim
      | withElseIf => exact crossed.elim
      | withElse plain first second =>
          obtain ⟨es, moment, crosses⟩ := crossed.crosses category plain first second
            (fun e he => fits e (stands.subset (List.mem_append_right before he))) passes encodes
          exact ⟨es, before, h, _, moment.trans stands, stands, category, crosses⟩

/-- In a source of forked bodies, no edge ever leads from the then block of an if statement to its
else block just if all bodies are layered: each else block is a single run, and each then block is a
single run or ends in an if statement. -/
theorem uncrossed_iff_layered (t : Tree) (fs : List Function) (shown : Shows t fs)
    (fits : Fits t.walk) (forked : ∀ f ∈ fs, f.body.Forked true) :
    (∀ es before h us, es <+: t.walk → before ++ (Tree.node h us).walk <+: t.walk →
      h.category = .ifStmt →
        ¬ Crosses (built es).graph before h us) ↔
      ∀ f ∈ fs, f.body.Layered := by
  constructor
  · intro uncrossed
    by_contra wrong
    push Not at wrong
    -- The functions before the first one that is not layered can be drawn.
    classical
    obtain ⟨f, found⟩ : ∃ f, fs.find? (fun f => decide (¬ f.body.Layered)) = some f := by
      rw [← Option.isSome_iff_exists, List.find?_isSome]
      simpa using wrong
    obtain ⟨first, gs, rest, rfl, layered⟩ := List.find?_eq_some_iff_append.mp found
    obtain ⟨es, before, h, us, moment, stands, category, crosses⟩ :=
      shown.crossed fits (by simpa using layered) (by simpa using first) (forked f (by simp))
    exact uncrossed es before h us moment stands category crosses
  · intro layered es before h us moment stands category
    exact shown.uncrossed fits layered moment stands category

section

open GoFlow.Tree

def ifInside : List Tree := [ifElse "d" [assign "x" "3"] [assign "x" "4"], assign "x" "5"]

def ifInElse : Tree :=
  of .sourceFile [func "f" [assign "x" "1", ifElse "c" [assign "x" "2"] ifInside]]

def ifInElseBody : Body :=
  .run "x = 1 \n" (.branch "c" (.run "x = 2 \n" .done)
    (.block (.branch "d" (.run "x = 3 \n" .done) (.block (.run "x = 4 \n" .done))
    (.run "x = 5 \n" .done))) .done)

theorem ifInElse_shows : Shows ifInElse [⟨"f", ifInElseBody⟩] :=
  have single (value : String) : Block (braces [assign "x" value])
      (.run (assignmentLines "=" ["x"] [value]) .done) :=
    .braces (.assign "x" value .close)
  have inner : Block (braces ifInside) _ :=
    .braces (.ifElse "d" (single "3") (single "4") (.assign "x" "5" .close))
  .intro rfl
  (.declares (.func "f" (.braces (.assign "x" "1" (.ifElse "c" (single "2") inner .close)))) .none)

theorem ifInElse_crossed : ifInElseBody.Forked true ∧ Fits ifInElse.walk ∧
    ∃ es before h us, es <+: ifInElse.walk ∧ before ++ (Tree.node h us).walk <+: ifInElse.walk ∧
      h.category = .ifStmt ∧ Crosses (built es).graph before h us := by
  have forked : ifInElseBody.Forked true := by simp [ifInElseBody, Body.Forked, Otherwise.Forked]
  have fits : Fits ifInElse.walk := by
    rw [Fits]
    decide +kernel
  have layered :=
    uncrossed_iff_layered ifInElse [⟨"f", ifInElseBody⟩] ifInElse_shows fits (by simpa using forked)
  refine ⟨forked, fits, ?_⟩
  by_contra none
  push Not at none
  have wrong : ¬ ifInElseBody.Layered := by simp [ifInElseBody, Body.Layered]
  exact wrong (layered.mp none _ List.mem_cons_self)

end

end GoFlow
