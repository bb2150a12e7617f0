import GoFlow.Proofs.Structured

/-! Functions with structured bodies, and what is drawn for them: an entry, the plan of the body and
an exit. The functions of a source follow one another, and the exit of each leads to the entry of
the next. -/

namespace GoFlow

open Sketch

namespace Sketch

variable {d d' : Sketch} {ports : List Port} {below under : List Tip} {level : Int}

/-- Nothing is open but so many blocks of a function, and a statement may be drawn after the
ports. -/
structure Within (level : Int) (d : Sketch) (ports : List Port) : Prop where
  ready : ∃ below under, d.Ready ports below under
  level : d.level = level
  branches : d.branches = []
  loops : d.loops = []
  begun : 1 ≤ d.count

theorem noBranchAtLevel_of_nil (h : d.branches = []) : d.NoBranchAtLevel := by
  intro b hb
  rw [h] at hb
  cases hb

theorem Opens.at_level (opens : d.Opens ports below under) (branches : d.branches = [])
    (loops : d.loops = []) (level : Int) : Opens { d with level } ports below under := by
  have same (x : Tip) : Sketch.apart { d with level } x = d.apart x := by
    simp [apart, beginsElse, branches, loops]
  obtain ⟨x, rest, lasts, h⟩ := opens
  exact ⟨x, rest, lasts, by rw [same]; exact h⟩

theorem Within.lower (h : d.Within level ports) : d.lower.Within (level - 1) ports := by
  obtain ⟨below, under, ready⟩ := h.ready
  refine ⟨⟨below, under, ready.held,
    ⟨ready.sorted.rising, ready.sorted.bounded, ready.sorted.firsts⟩,
    noBranchAtLevel_of_nil h.branches, ready.opens.at_level h.branches h.loops _, ready.known⟩, ?_,
    h.branches, h.loops, h.begun⟩
  rw [Sketch.lower, h.level]

theorem Within.after {p : Plan} {ports' : List Port} {below' under' : List Tip}
    (h : d.Within level ports) (drawn : Drawn p ports d.drawing d'.drawing)
    (frame : Frame d.level d d') (endsAt : d'.EndsAt ports' below' under')
    (known : ∀ y ∈ below', Known d'.count y) : d'.Within level ports' := by
  obtain ⟨below, under, ready⟩ := h.ready
  refine ⟨⟨below', under', endsAt.ready ready drawn frame known⟩, frame.level.trans h.level,
    frame.branches.trans h.branches, frame.loops.trans h.loops, ?_⟩
  have := h.begun
  have : d'.count = d.count + p.all.length := drawn.count
  omega

/-- Within the block of a loop, the first node is connected with the loop unless the number of the
loop happens to be the level. -/
theorem opens_loop {l : Spot} {loops : List Int} (lasts : d.lasts = .spot l :: below)
    (ends : d.ends = .spot l :: under) (role : l.role = .loop) (branches : d.branches = [])
    (hloops : d.loops = (l.number : Int) :: loops)
    (new : (Tip.spot l).addTo below = .spot l :: below) :
    ((l.number : Int) ≠ d.level ∧ d.Opens [.south l] below under) ∨
      ((l.number : Int) = d.level ∧ d.Opens [] (.spot l :: below) (.spot l :: under)) := by
  have condition : (Tip.spot l).hasRole .condition = false := by
    simp [Tip.spot, Tip.hasRole, Port.spot, role]
  by_cases same : (l.number : Int) = d.level
  · refine .inr ⟨same, .spot l, below, lasts, .inr ⟨?_, new, ends, rfl⟩⟩
    simp [apart, hloops, same, Tip.spot, Tip.hasRole, Port.spot, role]
  · refine .inl ⟨same, opens_joined (e := .spot l) lasts ends
      (noBranchAtLevel_of_nil branches) condition (.inr ?_)⟩
    rw [hloops]
    simpa using same

/-- The block of a loop of a function has been entered. -/
structure InLoop (l : Spot) (below under : List Tip) (d : Sketch) : Prop where
  role : l.role = .loop
  number : 2 ≤ l.number
  lasts : d.lasts = .spot l :: below
  ends : d.ends = .spot l :: under
  new : (Tip.spot l).addTo below = .spot l :: below
  known : ∀ y ∈ Tip.spot l :: below, Known d.count y
  sorted : d.Sorted
  held : d.held = ""
  level : d.level = 2
  branches : d.branches = []
  loops : d.loops = [(l.number : Int)]

theorem Within.enterLoop (h : d.Within 1 ports) (condition : String) :
    ∃ l d' below under, (d.enterFor condition).bind enterBlock = some d' ∧ l.number = d.count + 1 ∧
      d'.InLoop l below under ∧ d'.drawing = d.drawing.put l ("for " ++ condition) "egg" ports ∧
      d'.firsts = l :: d.firsts := by
  obtain ⟨below, under, ready⟩ := h.ready
  have begun := h.begun
  obtain ⟨l, hl⟩ : ∃ l : Spot, l = ⟨.loop, d.count + 1⟩ := ⟨_, rfl⟩
  have number : l.number = d.count + 1 := by rw [hl]
  have role : l.role = .loop := by rw [hl]
  have new : (Tip.spot l).addTo below = .spot l :: below :=
    addTo_new ready.known ⟨.south l, by simp [Tip.spot, Tip.ports], by simp [Port.spot, number]⟩
  refine ⟨l, { d.putting l ("for " ++ condition) "egg" ports below under with
    level := d.level + 1
    loops := [(l.number : Int)]
    firsts := l :: d.firsts }, below, under, ?_, number, ⟨role, by omega, rfl, rfl, new, ?_,
    ready.sorted.put number rfl rfl fun t => List.mem_cons.mp, ready.held, ?_, h.branches,
    rfl⟩, rfl, rfl⟩
  · rw [ready.opens.enterLoop ready.held ready.sorted.firsts, h.loops, number, hl]
  · exact known_push ready.known number
  · change d.level + 1 = 2
    rw [h.level]
    rfl

/-- The block of a loop is drawn as a plan, with the port of the loop before it or without. -/
theorem InLoop.draws {l : Spot} (h : d.InLoop l below under) {body : Body}
    (asPlan : body.DrawsAsPlan) (merged : body.Merged) (nonempty : body ≠ .done) :
    ∃ p d' inner below' under', body.finish d = some d' ∧ p.body = body ∧
      (inner = [.south l] ∨ inner = []) ∧ Drawn p inner d.drawing d'.drawing ∧ Frame 1 d d' ∧
      d'.EndsAt (p.exits inner) below' under' ∧ ∀ y ∈ below', Known d'.count y := by
  have number := h.number
  have level : d.level - 1 = 1 := by rw [h.level]; rfl
  by_cases run : body.IsRun
  · obtain ⟨text, rfl⟩ := run
    have opens : d.lower.Opens [.south l] below under := by
      refine ((opens_loop (d := d.lower) h.lasts h.ends h.role h.branches h.loops
        h.new).resolve_right fun same => ?_).2
      have : (l.number : Int) = d.level - 1 := same.1
      omega
    obtain ⟨s, d', flushed, drawn, frame, endsAt⟩ := opens.drawsRun h.held merged.1
    have count : d'.count = d.count + 1 := drawn.count
    refine ⟨.block s text .done, d', _, below, under, (finish_single d text).trans flushed, rfl,
      .inl rfl, drawn, ?_, endsAt, fun y hy => ?_⟩
    · rw [← level]
      exact ⟨frame.held, frame.level, frame.branches, frame.loops, frame.firsts⟩
    · exact known_mono (h.known y (List.mem_cons_of_mem _ hy)) (by omega)
  · have draw {inner : List Port} {below under : List Tip} (opens : d.Opens inner below under)
        (known : ∀ y ∈ below, Known d.count y) := asPlan d inner below under
      ⟨h.held, h.sorted, noBranchAtLevel_of_nil h.branches, opens, known⟩ (fun h => absurd h run)
      (.inr (.inr h.branches))
    rcases opens_loop h.lasts h.ends h.role h.branches h.loops h.new with ⟨_, opens⟩ | ⟨_, opens⟩
    · obtain ⟨p, d', finished, shows, drawn, frame, endsAt⟩ := draw opens fun y hy =>
        h.known y (List.mem_cons_of_mem _ hy)
      obtain ⟨below', endsAt, _, known, _⟩ := endsAt nonempty
      exact ⟨p, d', _, below', under, finished, shows, .inl rfl, drawn, level ▸ frame,
        endsAt, known⟩
    · obtain ⟨p, d', finished, shows, drawn, frame, endsAt⟩ := draw opens h.known
      obtain ⟨below', endsAt, _, known, _⟩ := endsAt nonempty
      exact ⟨p, d', _, below', _, finished, shows, .inr rfl, drawn, level ▸ frame, endsAt, known⟩

theorem exits_of_ne {p : Plan} (nonempty : p ≠ .done) (ports ports' : List Port) :
    p.exits ports = p.exits ports' := by
  cases p with
  | done => exact absurd rfl nonempty
  | _ => rfl

/-- Putting the east port of a loop on the lasts leaves no condition on top of them. -/
theorem addTo_east (l : Spot) (role : l.role = .loop) (stack : List Tip) :
    ∃ y rest, (Tip.port (.east l)).addTo stack = y :: rest ∧ y.hasRole .condition = false ∧
      ∀ z ∈ rest, z ∈ stack := by
  have east : (Tip.port (.east l)).hasRole .condition = false := by
    simp [Tip.hasRole, Port.spot, role]
  cases stack with
  | nil => exact ⟨_, [], rfl, east, List.forall_mem_nil _⟩
  | cons y ys =>
      rw [Tip.addTo]
      split
      · rename_i top
        refine ⟨y, ys, rfl, ?_, fun z => List.mem_cons_of_mem y⟩
        cases y with
        | group xs => rfl
        | port p =>
            simp only [Tip.members, List.contains_nil, Bool.false_or, beq_iff_eq] at top
            rw [top, east]
      · exact ⟨_, y :: ys, rfl, east, fun z => id⟩

theorem closeLoop_drawing (x : Tip) (l : Spot) (d : Sketch) :
    ∃ dummy, (∀ s ∈ dummy, s.number = d.count + 1 ∧ s.role = .dummy) ∧
      (closeLoop x l d).drawing =
        ⟨d.count + dummy.toList.length, d.nodes, d.strokes ++ Plan.back x.ports l dummy⟩ ∧
      (closeLoop x l d).held = d.held ∧ (closeLoop x l d).level = d.level ∧
      (closeLoop x l d).branches = d.branches ∧ (closeLoop x l d).loops = d.loops := by
  cases x with
  | port p => exact ⟨none, nofun, rfl, rfl, rfl, rfl, rfl⟩
  | group xs =>
      refine ⟨some ⟨.dummy, d.count + 1⟩, ?_, ?_, rfl, rfl, rfl, rfl⟩
      · rintro s ⟨⟩
        exact ⟨rfl, rfl⟩
      · simp [closeLoop, drawing, Plan.back, into]

theorem Within.drawsFor (h : d.Within 1 ports) {body : Body} (asPlan : body.DrawsAsPlan)
    (merged : body.Merged) (nonempty : body ≠ .done) (condition : String) :
    ∃ l p dummy d', drawFor condition body d = some d' ∧ p.body = body ∧
      Drawn (.loop l condition p dummy .done) ports d.drawing d'.drawing ∧
      d'.Within 1 [.east l] := by
  obtain ⟨l, d₂, below₂, under₂, entered, number, inLoop, drawing₂, firsts₂⟩ :=
    h.enterLoop condition
  obtain ⟨p, d₃, inner, below, under, finished, shows, same, drawn, frame, endsAt, known⟩ :=
    inLoop.draws asPlan merged nonempty
  have nonemptyPlan : p ≠ .done := by
    rintro rfl
    exact nonempty shows.symm
  obtain ⟨x, lasts, xPorts, _⟩ := endsAt.last
  obtain ⟨e, ends, _⟩ := endsAt.tail
  have sorted₃ := inLoop.sorted.drawn drawn frame.firsts
  have firsts₃ : d₃.firsts = l :: d.firsts := frame.firsts.trans firsts₂
  have next : d₃.next? l = some (p.start l) := by
    obtain ⟨spots, hspots⟩ := Plan.spots_of_ne nonemptyPlan l
    refine next?_middle d.nodes spots ?_ sorted₃.rising
    have nodes : d₃.nodes = d₂.drawing.nodes ++ p.spots := drawn.nodes
    rw [nodes, drawing₂, hspots]
    simp [Drawing.put, drawing]
  have left := leaveFor_eq (frame.loops.trans inLoop.loops) firsts₃ next lasts ends
  obtain ⟨_, _, ready⟩ := h.ready
  rw [addTo_fresh ready.sorted.firsts (number ▸ Nat.lt_succ_self _)] at left
  obtain ⟨dummy, hdummy, closed, held, level, branches, loops⟩ := closeLoop_drawing x l { d₃ with
    loops := []
    firsts := d.firsts
    lasts := below.erase x
    strokes := d₃.strokes ++ [.edge (.south l) (p.start l) []] }
  generalize closeLoop x l _ = d₄ at left closed held level branches loops
  rw [drawing₂] at drawn
  have whole : Drawn (.loop l condition p dummy .done) ports d.drawing d₄.drawing := by
    rw [closed, xPorts, exits_of_ne nonemptyPlan inner [.south l], List.append_assoc]
    exact .loop number (by rw [inLoop.role]; decide) nonemptyPlan same drawn hdummy
  obtain ⟨rising, bounded⟩ := whole.rising ready.sorted.rising ready.sorted.bounded
  have count : d₄.count = d.count + _ := whole.count
  simp only [Plan.all, List.length_cons] at count
  have grown : d₃.count ≤ d₄.count := by
    have : d₄.drawing.count = _ := congrArg Drawing.count closed
    exact Nat.le.intro this.symm
  obtain ⟨y, rest, top, condition, old⟩ := addTo_east l inLoop.role (below.erase x)
  have free : d₄.branches = [] := branches.trans (frame.branches.trans inLoop.branches)
  refine ⟨l, p, dummy, _, drawFor_of_parts entered finished left, shows, whole,
    ⟨rest, under, held.trans frame.held,
    ⟨rising, bounded, ?_⟩, noBranchAtLevel_of_nil free, opens_joined (e := .port (.east l)) top rfl
      (noBranchAtLevel_of_nil free) condition (.inr ?_), ?_⟩, level.trans frame.level, free,
      loops, ?_⟩
  · intro s hs
    change s.number ≤ d₄.count
    rcases List.mem_cons.mp hs with rfl | old
    · omega
    · have := ready.sorted.firsts s old
      omega
  · change d₄.loops.head? ≠ _
    simp [loops]
  · intro z hz
    exact known_mono (known z (List.mem_of_mem_erase (old z hz))) grown
  · have := h.begun
    change 1 ≤ d₄.count
    omega

end Sketch

theorem Body.structured_draws : (b : Body) → b.Structured true → b.Merged → ∀ {d : Sketch}
    {ports : List Port}, d.Within 1 ports → ∃ p d', b.finish d = some d' ∧ p.body = b ∧
      Drawn p ports d.drawing d'.drawing ∧ d'.Within 0 (p.exits ports)
  | .done, _, _, d, ports, within => by
      obtain ⟨_, _, ready⟩ := within.ready
      exact ⟨.done, d.lower, finish_held ready.held, rfl, Drawn.done ports d.drawing, within.lower⟩
  | .run text rest, structured, merged, d, ports, within => by
      obtain ⟨below, under, ready⟩ := within.ready
      by_cases last : rest = .done
      · subst last
        obtain ⟨below, under, ready⟩ := within.lower.ready
        obtain ⟨s, d', flushed, drawn, frame, endsAt⟩ := ready.opens.drawsRun ready.held merged.1
        have count : d'.count = d.count + 1 := drawn.count
        exact ⟨.block s text .done, d', (finish_single d text).trans flushed, rfl, drawn,
          within.lower.after drawn frame endsAt fun y hy => known_mono (ready.known y hy)
          (Nat.le_of_succ_le count.ge)⟩
      · obtain ⟨s, d₁, flushed, drawn, frame, endsAt⟩ := ready.opens.drawsRun ready.held merged.1
        have count : d₁.count = d.count + 1 := drawn.count
        have within₁ := within.after drawn frame endsAt fun y hy =>
          known_mono (ready.known y hy) (Nat.le_of_succ_le count.ge)
        obtain ⟨q, d', finished, body, drawnRest, left⟩ :=
          structured_draws rest structured merged.2.2 within₁
        refine ⟨.block s text q, d', ?_, by rw [Plan.body, body], drawn.append drawnRest, left⟩
        rw [finish_run text rest last merged, flushed]
        exact finished
  | .branch condition yes no rest, structured, merged, d, ports, within => by
      obtain ⟨⟨structuredYes, shapeYes⟩, ⟨text, rfl⟩, structured⟩ := structured
      obtain ⟨mergedYes, mergedNo, merged⟩ := merged
      obtain ⟨below, under, ready⟩ := within.ready
      obtain ⟨c, p, e, d₁, drew, bodyYes, drawn, frame, below₁, endsAt, _, known, _⟩ :=
        ready.drawsIf (drawsAsPlan yes structuredYes mergedYes) shapeYes mergedNo.1 condition
      obtain ⟨q, d', finished, body, drawnRest, left⟩ := structured_draws rest structured merged
        (within.after drawn frame endsAt known)
      refine ⟨.branch c condition p (.block e text .done) q, d', ?_, ?_,
        drawn.append drawnRest, left⟩
      · rw [finish_branch, drew]
        exact finished
      · rw [Plan.body, Plan.body, Plan.body, bodyYes, body]
  | .loop condition body rest, structured, merged, d, ports, within => by
      obtain ⟨_, ⟨structuredBody, nonempty⟩, structured⟩ := structured
      obtain ⟨mergedBody, merged⟩ := merged
      obtain ⟨l, p, dummy, d₁, drew, shows, drawn, within₁⟩ :=
        within.drawsFor (drawsAsPlan body structuredBody mergedBody) mergedBody nonempty condition
      obtain ⟨q, d', finished, showsRest, drawnRest, left⟩ :=
        structured_draws rest structured merged within₁
      refine ⟨.loop l condition p dummy q, d', ?_, by rw [Plan.body, shows, showsRest],
        drawn.append drawnRest, left⟩
      rw [finish_loop, drew]
      exact finished

/-- A function with its nodes. -/
structure Outline where
  name : String
  entry : Spot
  plan : Plan
  exit : Spot

namespace Outline

def function (o : Outline) : Function := ⟨o.name, o.plan.body⟩

/-- The plan with the entry before it and the exit after it. -/
def whole (o : Outline) : Plan :=
  .block o.entry o.name (o.plan.append (.block o.exit (o.name ++ " end") .done))

def wholeAll : List Outline → Plan
  | [] => .done
  | o :: os => o.whole.append (wholeAll os)

end Outline

namespace Sketch

variable {d d' : Sketch} {ports : List Port}

/-- No function is open: none has been drawn yet, or one that ends at the ports. -/
def Idle (d : Sketch) (ports : List Port) : Prop := d = {} ∧ ports = [] ∨ d.Within 0 ports

theorem within_entry {f : Spot} (below under : List Tip) (role : f.role = .entry)
    (lasts : d.lasts = .spot f :: below) (ends : d.ends = .spot f :: under)
    (known : ∀ y ∈ below, Known d.count y) (sorted : d.Sorted) (held : d.held = "")
    (level : d.level = 1) (branches : d.branches = []) (loops : d.loops = [])
    (begun : 1 ≤ d.count) :
    d.Within 1 [.south f] where
  ready :=
    ⟨below, under, held, sorted, noBranchAtLevel_of_nil branches,
      opens_joined (e := .spot f) lasts ends
    (noBranchAtLevel_of_nil branches) (by simp [Tip.spot, Tip.hasRole, Port.spot, role])
    (.inr (by simp [loops])), known⟩
  level := level
  branches := branches
  loops := loops
  begun := begun

theorem Idle.enterFunction (h : d.Idle ports) (name : String) :
    ∃ f d', (d.enterFunction name).bind enterBlock = some d' ∧ f.number = d.count + 1 ∧
      f.role = .entry ∧ d'.drawing = d.drawing.put f name "box" ports ∧ d'.Within 1 [.south f] := by
  rcases h with ⟨rfl, rfl⟩ | within
  · refine ⟨⟨.entry, 1⟩, {
      level := 1
      count := 1
      nodes := [⟨.entry, 1⟩]
      lasts := [.spot ⟨.entry, 1⟩]
      ends := [.spot ⟨.entry, 1⟩]
      strokes := [.node ⟨.entry, 1⟩ name "box"] }, rfl, rfl, rfl, rfl,
      within_entry [] [] rfl rfl rfl nofun ⟨?_, ?_, nofun⟩ rfl rfl rfl rfl (Nat.le_refl 1)⟩
    · exact List.pairwise_singleton _ _
    · intro s hs
      cases List.mem_singleton.mp hs
      exact Nat.le_refl 1
  · obtain ⟨below, under, ready⟩ := within.ready
    obtain ⟨f, hf⟩ : ∃ f : Spot, f = ⟨.entry, d.count + 1⟩ := ⟨_, rfl⟩
    have number : f.number = d.count + 1 := by rw [hf]
    have role : f.role = .entry := by rw [hf]
    refine ⟨f, { d.putting f name "box" ports below under with
      level := d.level + 1
      ends := .spot f :: .spot f :: under }, ?_, number, role, rfl, within_entry below
      (.spot f :: under) role rfl rfl ?_ ?_ ready.held ?_ within.branches within.loops
      (Nat.le_add_left 1 _)⟩
    · rw [Sketch.enterFunction, ready.opens.place, Option.map_some, Option.bind_some,
        enterBlock, ← hf]
      simp [putting, addTo_top, hf]
    · exact fun y hy => known_mono (ready.known y hy) (Nat.le_succ _)
    · exact ready.sorted.put number rfl rfl fun t => .inr
    · change d.level + 1 = 1
      rw [within.level]
      rfl

theorem Within.leaveFunction (h : d.Within 0 ports) (name : String) :
    ∃ z d', d.leaveFunction name = some d' ∧ z.number = d.count + 1 ∧ z.role ≠ .dummy ∧
      d'.drawing = d.drawing.put z (name ++ " end") "box" ports ∧ d'.Within 0 [.south z] := by
  obtain ⟨below, under, ready⟩ := h.ready
  have role := d.blockRole_plain
  have drawn : Drawn (.block ⟨d.blockRole, d.count + 1⟩ (name ++ " end") .done) ports d.drawing
      (d.drawing.put ⟨d.blockRole, d.count + 1⟩ (name ++ " end") "box" ports) :=
    .block rfl role.2.2.2 _ _
  refine ⟨_, _, ready.opens.place _ _ _, rfl, role.2.2.2, rfl, h.after drawn
    ⟨ready.held, rfl, rfl, rfl, rfl⟩ (endsAt_putting ⟨role.1, role.2.1, role.2.2.1⟩ _ _ _ _ _) ?_⟩
  exact fun y hy => known_mono (ready.known y hy) (Nat.le_succ _)

theorem Idle.drawsFunction (h : d.Idle ports) (f : Function) (structured : f.body.Structured true)
    (merged : f.body.Merged) :
    ∃ (o : Outline) (d' : Sketch), f.draw d = some d' ∧ o.function = f ∧
      Drawn o.whole ports d.drawing d'.drawing ∧ d'.Within 0 [.south o.exit] := by
  obtain ⟨s, d₁, entered, number, role, drawing₁, within⟩ := h.enterFunction f.name
  obtain ⟨p, d₂, finished, shows, drawn, within⟩ := f.body.structured_draws structured merged within
  obtain ⟨z, d₃, left, numberExit, roleExit, drawing₃, within⟩ := within.leaveFunction f.name
  refine ⟨⟨f.name, s, p, z⟩, d₃, ?_, by rw [Outline.function, shows], ?_, within⟩
  · rw [Function.draw_eq, entered, Option.bind_some, finished, Option.bind_some, left]
  · have first : Drawn (.block s f.name .done) ports d.drawing d₁.drawing := by
      rw [drawing₁]
      exact .block number (by rw [role]; decide) _ _
    have last : Drawn (.block z (f.name ++ " end") .done)
        (p.exits [.south s]) d₂.drawing d₃.drawing := by
      rw [drawing₃]
      exact .block numberExit roleExit _ _
    exact first.append (drawn.append last)

theorem Idle.drawsAll (h : d.Idle ports) (fs : List Function)
    (structured : ∀ f ∈ fs, f.body.Structured true ∧ f.body.Merged) :
    ∃ os d', drawAll fs d = some d' ∧ os.map Outline.function = fs ∧
      Drawn (Outline.wholeAll os) ports d.drawing d'.drawing := by
  induction fs generalizing d ports with
  | nil => exact ⟨[], d, rfl, rfl, Drawn.done ports d.drawing⟩
  | cons f fs ih =>
      obtain ⟨⟨structuredFirst, mergedFirst⟩, structured⟩ := List.forall_mem_cons.mp structured
      obtain ⟨o, d₁, drew, shows, drawn, within⟩ := h.drawsFunction f structuredFirst mergedFirst
      obtain ⟨os, d', drewRest, showsRest, drawnRest⟩ := ih (.inr within) structured
      refine ⟨o :: os, d', ?_, by rw [List.map_cons, shows, showsRest], drawn.append ?_⟩
      · rw [drawAll, drew]
        exact drewRest
      · have : o.whole.exits ports = [.south o.exit] := by
          simp [Outline.whole, Plan.exits, Plan.exits_append]
        rw [this]
        exact drawnRest

end Sketch

end GoFlow
