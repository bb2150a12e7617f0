import GoFlow.Proofs.Nodes

/-! Moves that make no node. They change the stacks of nodes and add edges, and they are guided by
names and levels alone: without the texts in the builder they go the same way. -/

namespace GoFlow

open Dot (Statement)

/-- The statement without the label of a node. -/
def Dot.Statement.unlabelled : Statement → Statement
  | .node name _ shape => .node name "" shape
  | s => s

theorem Dot.Statement.unlabelled_edge {s : Statement} (edge : s.declares = none) :
    s.unlabelled = s := by
  cases s with
  | node => cases edge
  | setting => rfl
  | edge => rfl

namespace Builder

/-- The builder without its texts. The labels of the nodes are left out, and of the text held back
it is only kept whether there is any. -/
def bare (b : Builder) : Builder :=
  { b with
    held := if b.held.isEmpty then "" else "\n"
    graph := b.graph.map Statement.unlabelled
    drawn := b.drawn.map (List.map Statement.unlabelled) }

/-- What does not depend on texts is the same. -/
theorem of_bare {b c : Builder} {β : Type} (same : b.bare = c.bare) (f : Builder → β)
    (blind : ∀ b : Builder, f b.bare = f b) : f b = f c := by
  rw [← blind b, same, blind]

theorem held_isEmpty_of_bare {b c : Builder} (same : b.bare = c.bare) :
    b.held.isEmpty = c.held.isEmpty := by
  have held : (if b.held.isEmpty then "" else "\n") = if c.held.isEmpty then "" else "\n" :=
    congrArg Builder.held same
  generalize b.held.isEmpty = x, c.held.isEmpty = y at held
  cases x <;> cases y <;> first | rfl | exact absurd held (by decide)

/-- The builder without its stacks of nodes and its graph. -/
def frame (b : Builder) : Builder :=
  { b with
    count := 0, firsts := [], lasts := [], ends := [], graph := [], drawings := 0, drawn := none }

/-- From one builder to another, only stacks of nodes have changed, and edges have been added. -/
def Rewires (b c : Builder) : Prop :=
  c.frame = b.frame ∧ ∃ edges, c.graph = b.graph ++ edges ∧ ∀ s ∈ edges, s.declares = none

theorem Rewires.refl (b : Builder) : b.Rewires b := ⟨rfl, [], by rw [List.append_nil], by simp⟩

theorem Rewires.trans {b c d : Builder} (first : b.Rewires c) (second : c.Rewires d) :
    b.Rewires d := by
  obtain ⟨frame, edges, graph, none⟩ := first
  obtain ⟨frame', edges', graph', none'⟩ := second
  refine ⟨frame'.trans frame, edges ++ edges', by rw [graph', graph, List.append_assoc], ?_⟩
  intro s hs
  rcases List.mem_append.mp hs with early | late
  · exact none s early
  · exact none' s late

/-- The stacks alone have changed. -/
theorem Rewires.restack {b c : Builder} (frame : c.frame = b.frame) (graph : c.graph = b.graph) :
    b.Rewires c :=
  ⟨frame, [], by rw [graph, List.append_nil], by simp⟩

/-- What the frame shows has not changed. -/
theorem Rewires.same {b c : Builder} {β : Type} (h : b.Rewires c) (f : Builder → β)
    (framed : ∀ b : Builder, f b.frame = f b) : f c = f b := by
  rw [← framed c, h.1, framed]

end Builder

namespace Move

open Builder (bare Rewires)

variable {α β : Type} {g : Builder → Builder}

/-- Whether the builder is changed before the move or after it makes no difference. -/
def Natural (g : Builder → Builder) (m : Move α) : Prop :=
  ∀ b, (g b).perform m = ((b.perform m).1, g (b.perform m).2)

namespace Natural

theorem pure (a : α) : Natural g (Pure.pure a) := fun _ => rfl

theorem throw (e : Mishap) : Natural g (MonadExcept.throw e : Move α) := fun _ => rfl

theorem lift (x : Except Mishap α) : Natural g (liftM x) := by
  intro b
  rw [Builder.perform_lift, Builder.perform_lift]

theorem bind {m : Move α} {f : α → Move β} (first : Natural g m) (next : ∀ a, Natural g (f a)) :
    Natural g (m >>= f) := by
  intro b
  rw [Builder.perform_bind, Builder.perform_bind, first b]
  rcases b.perform m with ⟨e | a, c⟩
  · rfl
  · exact next a c

/-- A look at what the change leaves alone. -/
theorem look {f : Builder → Move α} (blind : ∀ b, f (g b) = f b) (each : ∀ b, Natural g (f b)) :
    Natural g (get >>= f) := by
  intro b
  rw [Builder.perform_bind_ok (Builder.perform_get _),
    Builder.perform_bind_ok (Builder.perform_get _), blind]
  exact each b b

theorem modify {f : Builder → Builder} (commutes : ∀ b, f (g b) = g (f b)) :
    Natural g (modify f : Move Unit) := by
  intro b
  rw [Builder.perform_modify, Builder.perform_modify, commutes]

theorem ite {p : Prop} [Decidable p] {m n : Move α} (hm : Natural g m) (hn : Natural g n) :
    Natural g (if p then m else n) := by
  split
  · exact hm
  · exact hn

end Natural

theorem popIf_natural (ifs : ∀ b, (g b).ifs = b.ifs)
    (commutes : ∀ b xs, { g b with ifs := xs } = g { b with ifs := xs }) : Natural g popIf := by
  refine Natural.look (fun b => by rw [ifs]) fun b => ?_
  cases b.ifs with
  | nil => exact .throw _
  | cons x xs => exact (Natural.modify (fun b => commutes b xs)).bind fun _ => .pure x

theorem popIfLevel_natural (levels : ∀ b, (g b).ifLevels = b.ifLevels)
    (commutes : ∀ b xs, { g b with ifLevels := xs } = g { b with ifLevels := xs }) :
    Natural g popIfLevel := by
  refine Natural.look (fun b => by rw [levels]) fun b => ?_
  cases b.ifLevels with
  | nil => exact .throw _
  | cons x xs => exact (Natural.modify (fun b => commutes b xs)).bind fun _ => .pure x

/-- The move changes stacks of nodes and adds edges, and does not go by texts. -/
structure Rewiring (m : Move α) : Prop where
  rewires : ∀ b : Builder, b.Rewires (b.perform m).2
  natural : Natural bare m

namespace Rewiring

theorem of {m : Move α} (h : Rewiring m) {b c : Builder} {r : Except Mishap α}
    (done : b.perform m = (r, c)) : b.Rewires c := by
  have rewires := h.rewires b
  rw [done] at rewires
  exact rewires

theorem pure (a : α) : Rewiring (Pure.pure a) := ⟨Rewires.refl, .pure a⟩

theorem throw (e : Mishap) : Rewiring (MonadExcept.throw e : Move α) := ⟨Rewires.refl, .throw e⟩

theorem lift (x : Except Mishap α) : Rewiring (liftM x) := by
  refine ⟨fun b => ?_, .lift x⟩
  rw [Builder.perform_lift]
  exact Rewires.refl b

theorem bind {m : Move α} {f : α → Move β} (first : Rewiring m) (next : ∀ a, Rewiring (f a)) :
    Rewiring (m >>= f) := by
  refine ⟨fun b => ?_, first.natural.bind fun a => (next a).natural⟩
  have rewires := first.rewires b
  rw [Builder.perform_bind]
  rcases h : b.perform m with ⟨e | a, c⟩
  · rw [h] at rewires
    exact rewires
  · rw [h] at rewires
    exact rewires.trans ((next a).rewires c)

theorem look {f : Builder → Move α} (blind : ∀ b, f b.bare = f b) (each : ∀ b, Rewiring (f b)) :
    Rewiring (get >>= f) := by
  refine ⟨fun b => ?_, .look blind fun b => (each b).natural⟩
  rw [Builder.perform_bind_ok (Builder.perform_get _)]
  exact (each b).rewires b

/-- A step that changes stacks only. -/
theorem modify {f : Builder → Builder} (frame : ∀ b, (f b).frame = b.frame)
    (graph : ∀ b, (f b).graph = b.graph) (commutes : ∀ b, f (bare b) = bare (f b)) :
    Rewiring (modify f : Move Unit) :=
  ⟨fun b => .restack (frame b) (graph b), .modify commutes⟩

theorem ite {p : Prop} [Decidable p] {m n : Move α} (hm : Rewiring m) (hn : Rewiring n) :
    Rewiring (if p then m else n) := by
  split
  · exact hm
  · exact hn

end Rewiring

theorem edition_rewiring : Rewiring Move.edition := .look (fun _ => rfl) fun _ => .pure _

theorem popFirst_rewiring : Rewiring popFirst := by
  apply Rewiring.look (fun _ => rfl)
  intro b
  cases b.firsts with
  | nil => exact .throw _
  | cons x xs =>
      exact (Rewiring.modify (by intro _; rfl) (by intro _; rfl) (by intro _; rfl)).bind fun _ =>
        .pure x

theorem popLast_rewiring : Rewiring popLast := by
  apply Rewiring.look (fun _ => rfl)
  intro b
  cases b.lasts with
  | nil => exact .throw _
  | cons x xs =>
      exact (Rewiring.modify (by intro _; rfl) (by intro _; rfl) (by intro _; rfl)).bind fun _ =>
        .pure x

theorem popEnd_rewiring : Rewiring popEnd := by
  apply Rewiring.look (fun _ => rfl)
  intro b
  cases b.ends with
  | nil => exact .throw _
  | cons x xs =>
      exact (Rewiring.modify (by intro _; rfl) (by intro _; rfl) (by intro _; rfl)).bind fun _ =>
        .pure x

theorem addFirst_rewiring (x : Item) : Rewiring (addFirst x) :=
  .modify (fun _ => rfl) (fun _ => rfl) fun _ => rfl

theorem addLast_rewiring (x : Item) : Rewiring (addLast x) :=
  .modify (fun _ => rfl) (fun _ => rfl) fun _ => rfl

theorem dropLast_rewiring (x : Item) : Rewiring (dropLast x) :=
  .modify (fun _ => rfl) (fun _ => rfl) fun _ => rfl

theorem pushEnd_rewiring (x : Item) : Rewiring (pushEnd x) :=
  .modify (fun _ => rfl) (fun _ => rfl) fun _ => rfl

theorem draw_rewiring : Rewiring draw := .modify (fun _ => rfl) (fun _ => rfl) fun _ => rfl

theorem lastNode_rewiring : Rewiring lastNode := by
  apply Rewiring.look (fun _ => rfl)
  intro b
  cases b.nodes.getLast? with
  | none => exact .throw _
  | some s => exact .pure s

theorem innermostIf_rewiring : Rewiring innermostIf := by
  apply Rewiring.look (fun _ => rfl)
  intro b
  cases b.ifs with
  | nil => exact .throw _
  | cons x xs => exact .pure x

theorem indexOf_rewiring (name : String) : Rewiring (indexOf name) := by
  apply Rewiring.look (fun _ => rfl)
  intro b
  cases b.nodes.idxOf? name with
  | none => exact .throw _
  | some i => exact .pure i

theorem nodeAt_rewiring (i : Nat) : Rewiring (nodeAt i) := by
  apply Rewiring.look (fun _ => rfl)
  intro b
  cases b.nodes[i]? with
  | none => exact .throw _
  | some s => exact .pure s

theorem advance_rewiring (x : Item) : Rewiring (advance x) := by
  fun_induction advance x with
  | case1 s => exact edition_rewiring.bind fun ed => (indexOf_rewiring _).bind fun i =>
      (nodeAt_rewiring _).bind fun t => .pure _
  | case2 x y rest ihx ihy => exact ihx.bind fun first => ihy.bind fun second => .pure _
  | case3 x ih => exact ih.bind fun _ => .throw _
  | case4 => exact .throw _

theorem nodeBefore_rewiring (x : Item) : Rewiring (nodeBefore x) := by
  refine (Rewiring.lift _).bind fun name => (indexOf_rewiring name).bind fun i => ?_
  cases i with
  | zero => exact lastNode_rewiring
  | succ i => exact nodeAt_rewiring i

theorem emitEdge_rewiring {s : Statement} (edge : s.declares = none) : Rewiring (emit s) := by
  refine ⟨fun b => ⟨rfl, [s], rfl, by simpa using edge⟩, .modify fun b => ?_⟩
  simp [bare, Statement.unlabelled_edge edge]

theorem edge_rewiring (tail head : Item) (attributes : List (String × String)) :
    Rewiring (edge tail head attributes) := by
  unfold edge
  split
  · exact emitEdge_rewiring rfl
  · exact .throw _

theorem noteEnd_rewiring (head : Item) : Rewiring (noteEnd head) := by
  apply Rewiring.look (fun _ => rfl)
  intro b
  cases b.ends with
  | nil => exact pushEnd_rewiring head
  | cons last rest =>
      refine (pushEnd_rewiring head).ite (Rewiring.ite ?_ (.pure _))
      apply edition_rewiring.bind
      intro ed
      cases ed with
      | early => exact pushEnd_rewiring head
      | late => exact (Rewiring.lift _).bind fun dummy => (pushEnd_rewiring head).ite (.pure _)

mutual

theorem connect_rewiring (tail head : Item) (manual : Bool) (attributes : List (String × String)) :
    Rewiring (connect tail head manual attributes) := by
  cases tail with
  | name s =>
      rw [connect]
      exact (edge_rewiring _ _ _).bind fun _ => (noteEnd_rewiring head).ite (.pure _)
  | group xs =>
      rw [connect]
      exact (connectAll_rewiring xs head manual).bind fun _ => (noteEnd_rewiring head).ite (.pure _)

theorem connectAll_rewiring (tails : List Item) (head : Item) (manual : Bool) :
    Rewiring (connectAll tails head manual) := by
  cases tails with
  | nil => exact .pure _
  | cons x xs =>
      rw [connectAll]
      exact edition_rewiring.bind fun ed => (connect_rewiring x head _ []).bind fun _ =>
        connectAll_rewiring xs head manual

end

theorem atIfLevel_rewiring : Rewiring atIfLevel := .look (fun _ => rfl) fun _ => .pure _

theorem blockKind_rewiring : Rewiring blockKind := by
  apply Rewiring.look (fun _ => rfl)
  intro b
  cases b.nodes.getLast? with
  | none => exact .pure _
  | some last =>
      cases b.ifs with
      | nil => exact .pure _
      | cons branches ifs =>
          refine (Rewiring.lift _).bind fun isThen => Rewiring.ite (.pure _) ?_
          cases b.edition with
          | early => exact .pure _
          | late =>
              refine atIfLevel_rewiring.bind fun level => Rewiring.ite ?_ (.pure _)
              split
              · exact (Rewiring.lift _).bind fun isElse => .pure _
              · exact .pure _

theorem nodeKind_rewiring (kind : String) : Rewiring (nodeKind kind) :=
  blockKind_rewiring.ite (.pure kind)

theorem beginsApart_rewiring (last : Item) : Rewiring (beginsApart last) := by
  apply Rewiring.look (fun _ => rfl)
  intro b
  cases b.edition with
  | early =>
      cases b.ifLevels with
      | nil => exact .pure _
      | cons level levels => exact Rewiring.ite (.pure _) (.lift _)
  | late =>
      have rest (isThen isElse : Bool) : Rewiring (do
          let isLoop ←
            if b.forLevels.head? == some b.level then (last.startsWith "l" : Except Mishap Bool)
            else pure false
          return isThen || isElse || isLoop : Move Bool) :=
        ((Rewiring.lift _).bind fun isLoop => .pure _).ite (.pure _)
      refine (Rewiring.lift _).bind fun isThen => atIfLevel_rewiring.bind fun level => ?_
      refine Rewiring.ite (innermostIf_rewiring.bind fun branches => Rewiring.ite ?_ (rest _ _))
        (rest _ _)
      split
      · exact (Rewiring.lift _).bind fun isElse => rest _ _
      · exact rest _ _

theorem settle_rewiring (name : String) : Rewiring (settle name) := by
  refine popLast_rewiring.bind fun last => (beginsApart_rewiring last).bind fun apart => ?_
  cases apart with
  | true =>
      exact (addLast_rewiring last).bind fun _ => (pushEnd_rewiring _).bind fun _ =>
        addLast_rewiring _
  | false =>
      exact popEnd_rewiring.bind fun tail => (connect_rewiring _ _ _ _).bind fun _ =>
        addLast_rewiring _

theorem popBranchEnd_rewiring : Rewiring popBranchEnd :=
  popLast_rewiring.bind fun x => (dropLast_rewiring x).bind fun _ => .pure x

theorem thenBranch_rewiring : Rewiring thenBranch := by
  apply edition_rewiring.bind
  intro ed
  cases ed with
  | late => exact popFirst_rewiring.bind fun x => (advance_rewiring x).bind fun _ => .pure _
  | early => exact popFirst_rewiring.bind fun x => (advance_rewiring x).bind fun _ => .pure _

theorem leaveIfElse_rewiring : Rewiring leaveIfElse := by
  have rest (ifNode thenFirst elseFirst thenLast elseLast : Item) : Rewiring (do
      connect ifNode thenFirst true [("label", "true"), ("headport", "n"), ("tailport", "w")]
      connect ifNode elseFirst true [("label", "false"), ("headport", "n"), ("tailport", "e")]
      addLast (.group [thenLast, elseLast])
      let _ ← popEnd
      let _ ← popEnd
      let _ ← popEnd
      pushEnd (joinEnds thenLast elseLast)) := by
    refine (connect_rewiring _ _ _ _).bind fun _ => (connect_rewiring _ _ _ _).bind fun _ => ?_
    refine (addLast_rewiring _).bind fun _ => popEnd_rewiring.bind fun _ =>
      popEnd_rewiring.bind fun _ => ?_
    exact popEnd_rewiring.bind fun _ => pushEnd_rewiring _
  refine popFirst_rewiring.bind fun x => (advance_rewiring x).bind fun elseFirst => ?_
  refine popLast_rewiring.bind fun elseLast => thenBranch_rewiring.bind fun p => ?_
  refine popBranchEnd_rewiring.bind fun thenLast => edition_rewiring.bind fun ed => ?_
  cases ed with
  | late => exact rest _ _ _ _ _
  | early => exact (nodeBefore_rewiring _).bind fun s => rest (.name s) _ _ _ _

theorem leaveIfThen_rewiring : Rewiring leaveIfThen := by
  have rest (thenFirst : Item) : Rewiring (do
      let thenLast ← popBranchEnd
      let ifNode ← nodeBefore thenFirst
      connect (.name ifNode) thenFirst true [("label", "true")]
      let _ ← popEnd
      let _ ← popEnd
      pushEnd (.group [.name (ifNode ++ ":e"), thenLast])
      addLast thenLast) := by
    refine popBranchEnd_rewiring.bind fun thenLast => (nodeBefore_rewiring _).bind fun ifNode => ?_
    refine (connect_rewiring _ _ _ _).bind fun _ => popEnd_rewiring.bind fun _ =>
      popEnd_rewiring.bind fun _ => ?_
    exact (pushEnd_rewiring _).bind fun _ => addLast_rewiring _
  refine popFirst_rewiring.bind fun x => (advance_rewiring x).bind fun y =>
    edition_rewiring.bind fun ed => ?_
  cases ed with
  | late => exact popFirst_rewiring.bind fun x => (advance_rewiring x).bind fun z => rest z
  | early => exact rest y

theorem loopBody_rewiring : Rewiring loopBody :=
  popFirst_rewiring.bind fun x => (advance_rewiring x).bind fun first =>
    popBranchEnd_rewiring.bind fun _ => (nodeBefore_rewiring first).bind fun _ => .pure _

theorem closeLoop_rewiring (last : Item) (loop : String) : Rewiring (closeLoop last loop) := by
  refine Rewiring.ite ?_ (connect_rewiring _ _ _ _)
  refine (Rewiring.modify (by intro _; rfl) (by intro _; rfl) (by intro _; rfl)).bind fun _ => ?_
  exact .look (fun _ => rfl) fun b => (connect_rewiring _ _ _ _).bind fun _ =>
    connect_rewiring _ _ _ _

/-- What is done with the stacks when a block is entered. -/
def noteBlock : Move Unit := do
  let last := Item.name (← lastNode)
  if !(← (last.startsWith "f" : Except Mishap Bool)) then addFirst last
  addLast last

theorem enterBlock_eq :
    enterBlock = (do
      modify fun b => { b with level := b.level + 1 }
      noteBlock) := rfl

theorem noteBlock_rewiring : Rewiring noteBlock := by
  refine lastNode_rewiring.bind fun last => (Rewiring.lift _).bind fun isFunction => ?_
  exact ((addFirst_rewiring _).bind fun _ => addLast_rewiring _).ite (addLast_rewiring _)

/-- What is done with the stacks and the graph when an if statement is left. -/
def closeIf (ts : List Tree) : Move Unit := do
  if ts.length = 5 then leaveIfElse else leaveIfThen
  draw

theorem leaveIf_eq (ts : List Tree) :
    leaveIf ts = (do
      closeIf ts
      let _ ← popIf
      let _ ← popIfLevel) := by
  unfold leaveIf closeIf
  split <;> simp only [bind_assoc]

theorem closeIf_rewiring (ts : List Tree) : Rewiring (closeIf ts) :=
  (leaveIfElse_rewiring.bind fun _ => draw_rewiring).ite
    (leaveIfThen_rewiring.bind fun _ => draw_rewiring)

/-- What is done with the stacks and the graph when a loop is left. -/
def leaveLoop : Edition → Move Unit
  | .late => do
      let (first, last, loop) ← loopBody
      connect (.name loop) first true []
      closeLoop last loop
      let _ ← popEnd
      pushEnd (.name (loop ++ ":e"))
      draw
      addLast (.name (loop ++ ":e"))
      addFirst (.name loop)
  | .early => do
      let (first, last, loop) ← loopBody
      connect (.name loop) first true []
      connect last (.name loop) false [("headport", "e"), ("tailport", "e")]
      let _ ← popEnd
      let _ ← popEnd
      pushEnd (.group [.name (loop ++ ":w"), last])
      addLast (.name (loop ++ ":w"))

/-- Only the late edition keeps the levels of loops. -/
def popLoopLevel : Edition → Move Unit
  | .late => do let _ ← popForLevel
  | .early => pure ()

theorem leaveFor_eq :
    leaveFor = (do
      let ed ← Move.edition
      popLoopLevel ed
      leaveLoop ed) := by
  refine bind_congr fun ed => ?_
  cases ed with
  | late => simp only [popLoopLevel, bind_assoc, pure_bind]; rfl
  | early => simp only [popLoopLevel, pure_bind]; rfl

theorem leaveLoop_rewiring (ed : Edition) : Rewiring (leaveLoop ed) := by
  cases ed with
  | late =>
      refine loopBody_rewiring.bind fun p => (connect_rewiring _ _ _ _).bind fun _ => ?_
      refine (closeLoop_rewiring _ _).bind fun _ => popEnd_rewiring.bind fun _ =>
        (pushEnd_rewiring _).bind fun _ => ?_
      exact draw_rewiring.bind fun _ => (addLast_rewiring _).bind fun _ => addFirst_rewiring _
  | early =>
      refine loopBody_rewiring.bind fun p => (connect_rewiring _ _ _ _).bind fun _ => ?_
      refine (connect_rewiring _ _ _ _).bind fun _ => popEnd_rewiring.bind fun _ =>
        popEnd_rewiring.bind fun _ => ?_
      exact (pushEnd_rewiring _).bind fun _ => addLast_rewiring _

/-- A node is declared with the next number, and is joined to others. -/
theorem newNode_declares {b c : Builder} {kind content shape name : String}
    (made : b.perform (newNode kind content shape) = (.ok name, c)) :
    ∃ k : String, (if kind = "b" then k ∈ ["b", "t", "e"] else k = kind) ∧
      name = k ++ toString (b.count + 1) ∧
      (declared b name (nodeLabel b.edition b.held content k name) shape).Rewires c := by
  obtain ⟨k, told, chosen⟩ := nodeKind_told made
  rw [perform_newNode told rfl, ← bind_assoc] at made
  obtain ⟨u, d, settled, returned⟩ := Builder.of_perform_bind made
  cases returned
  have rest : Rewiring (do
      (if b.lasts.isEmpty then pure () else settle (k ++ toString (b.count + 1)) : Move Unit)
      (if b.edition = .late then draw else pure () : Move Unit)) :=
    ((Rewiring.pure _).ite (settle_rewiring _)).bind fun _ => draw_rewiring.ite (.pure _)
  exact ⟨k, chosen, rfl, rest.of settled⟩

end Move

end GoFlow
