import GoFlow.Proofs.Rewiring
import Mathlib.Data.List.Forall2

/-! The two editions side by side. They make nodes of different kinds and join them in different
ways, but they read the same statements, hold back the same text, and give the same content to the
nodes they make. -/

namespace GoFlow

open Dot (Statement)

/-- The name is that of a loop. -/
def namesLoop (name : String) : Bool := name.toList.head? == some 'l'

/-- Nodes that the late and the early edition make for the same thing. They have the same shape and
content; the late edition shows the keyword before the condition of a loop, and the early one the
name of each node behind its content. -/
def Dot.Statement.Counterpart : Statement → Statement → Prop
  | .node name label shape, .node name' label' shape' =>
      shape = shape' ∧ namesLoop name = namesLoop name' ∧ ∃ content,
        label = (if namesLoop name then "for " ++ content else content) ∧
        label' = content ++ " " ++ name'
  | _, _ => False

namespace Builder

/-- What a builder keeps of the declaration it reads, of the text it holds back and of the blocks
and branches that are open. All else is left out. -/
def reading (b : Builder) : Builder :=
  { edition := .late
    phase := b.phase
    typed := b.typed
    operands := b.operands
    held := b.held
    namesRead := b.namesRead
    valuesRead := b.valuesRead
    level := b.level
    ifLevels := b.ifLevels
    ifs := b.ifs }

/-- The statements by which nodes are declared. -/
def declarations (b : Builder) : List Statement := b.graph.filter fun s => s.declares.isSome

/-- A builder of the late edition and one of the early edition that have read the same and have made
nodes for the same things. -/
structure Agrees (b c : Builder) : Prop where
  late : b.edition = .late
  early : c.edition = .early
  reading : b.reading = c.reading
  nodes : List.Forall₂ Statement.Counterpart b.declarations c.declarations

theorem Agrees.new : (Builder.new .late).Agrees (Builder.new .early) := ⟨rfl, rfl, rfl, .nil⟩

theorem Agrees.held {b c : Builder} (h : b.Agrees c) : b.held = c.held :=
  show b.reading.held = c.reading.held by rw [h.reading]

theorem Rewires.declarations {b c : Builder} (h : b.Rewires c) :
    c.declarations = b.declarations := by
  obtain ⟨-, edges, graph, none⟩ := h
  have empty : edges.filter (fun s => s.declares.isSome) = [] :=
    List.filter_eq_nil_iff.mpr fun s hs => by simp [none s hs]
  rw [Builder.declarations, graph, List.filter_append, empty, List.append_nil, Builder.declarations]

end Builder

namespace Move

open Builder (reading Agrees)

variable {α β γ δ : Type}

/-- If the one move is done by a builder of the late edition and the other by one of the early
edition, they still agree. -/
def Abreast (m : Move α) (n : Move β) : Prop :=
  ∀ b c : Builder, b.Agrees c → ∀ x b' y c', b.perform m = (.ok x, b') → c.perform n = (.ok y, c') →
    b'.Agrees c'

namespace Abreast

theorem bind {m : Move α} {n : Move β} {f : α → Move γ} {g : β → Move δ} (first : Abreast m n)
    (next : ∀ x y, Abreast (f x) (g y)) : Abreast (m >>= f) (n >>= g) := by
  intro b c agrees x b' y c' doneLate doneEarly
  obtain ⟨u, d, firstLate, doneLate⟩ := Builder.of_perform_bind doneLate
  obtain ⟨v, e, firstEarly, doneEarly⟩ := Builder.of_perform_bind doneEarly
  exact next u v d e (first b c agrees u d v e firstLate firstEarly) x b' y c' doneLate doneEarly

/-- The same question about the tree. -/
theorem read {x : Except Mishap α} {f : α → Move β} {g : α → Move γ}
    (next : ∀ a, Abreast (f a) (g a)) : Abreast (liftM x >>= f) (liftM x >>= g) := by
  intro b c agrees v b' w c' doneLate doneEarly
  rw [Builder.perform_bind, Builder.perform_lift] at doneLate doneEarly
  cases x with
  | error => cases doneLate
  | ok a => exact next a b c agrees v b' w c' doneLate doneEarly

theorem look {f : Builder → Move α} {g : Builder → Move β}
    (each : ∀ b c : Builder, b.Agrees c → Abreast (f b) (g c)) :
    Abreast (get >>= f) (get >>= g) := by
  intro b c agrees x b' y c' doneLate doneEarly
  rw [Builder.perform_bind_ok (Builder.perform_get _)] at doneLate doneEarly
  exact each b c agrees b c agrees x b' y c' doneLate doneEarly

theorem edition {f : Edition → Move α} {g : Edition → Move β}
    (next : Abreast (f .late) (g .early)) : Abreast (Move.edition >>= f) (Move.edition >>= g) := by
  intro b c agrees x b' y c' doneLate doneEarly
  rw [Builder.perform_bind_ok (Builder.perform_edition _), agrees.late] at doneLate
  rw [Builder.perform_bind_ok (Builder.perform_edition _), agrees.early] at doneEarly
  exact next b c agrees x b' y c' doneLate doneEarly

theorem ite {p : Prop} [Decidable p] {m m' : Move α} {n n' : Move β} (hm : Abreast m n)
    (hn : Abreast m' n') : Abreast (if p then m else m') (if p then n else n') := by
  split
  · exact hm
  · exact hn

end Abreast

/-- The move has no part in what the editions agree on. -/
def Aside (m : Move α) : Prop :=
  ∀ b : Builder, (b.perform m).2.edition = b.edition ∧ (b.perform m).2.reading = b.reading ∧
    (b.perform m).2.declarations = b.declarations

theorem Rewiring.aside {m : Move α} (h : Rewiring m) : Aside m := fun b =>
  have rewires := h.rewires b
  ⟨rewires.same Builder.edition fun _ => rfl, rewires.same reading fun _ => rfl,
  rewires.declarations⟩

theorem Aside.abreast {m : Move α} {n : Move β} (hm : Aside m) (hn : Aside n) : Abreast m n := by
  intro b c agrees x b' y c' doneLate doneEarly
  have late := hm b
  have early := hn c
  rw [doneLate] at late
  rw [doneEarly] at early
  exact
    { late := late.1.trans agrees.late
      early := early.1.trans agrees.early
      reading := late.2.1.trans (agrees.reading.trans early.2.1.symm)
      nodes := by rw [late.2.2, early.2.2]; exact agrees.nodes }

theorem Rewiring.abreast {m : Move α} {n : Move β} (hm : Rewiring m) (hn : Rewiring n) :
    Abreast m n :=
  hm.aside.abreast hn.aside

/-- A move that goes by what the editions agree on, and leaves the graph alone. -/
theorem Natural.abreast {m : Move α} (natural : Natural reading m)
    (kept : ∀ b : Builder, (b.perform m).2.edition = b.edition ∧ (b.perform m).2.graph = b.graph) :
    Abreast m m := by
  intro b c agrees x b' y c' doneLate doneEarly
  have late := kept b
  have early := kept c
  have same := natural b
  rw [agrees.reading, natural c] at same
  rw [doneLate] at late same
  rw [doneEarly] at early same
  exact
    { late := late.1.trans agrees.late
      early := early.1.trans agrees.early
      reading := (Prod.mk.inj same).2.symm
      nodes := by
        rw [Builder.declarations, Builder.declarations, late.2, early.2]; exact agrees.nodes }

theorem Texts.abreast {m : Move α} (texts : Texts m) (natural : Natural reading m) : Abreast m m :=
  natural.abreast fun b =>
    have same := (texts b).blank
    ⟨show (b.perform m).2.blank.edition = b.blank.edition by rw [same],
      show (b.perform m).2.blank.graph = b.blank.graph by rw [same]⟩

theorem modify_abreast {f : Builder → Builder}
    (commutes : ∀ b : Builder, f b.reading = (f b).reading)
    (edition : ∀ b, (f b).edition = b.edition) (graph : ∀ b, (f b).graph = b.graph) :
    Abreast (modify f : Move Unit) (modify f : Move Unit) :=
  (Natural.modify commutes).abreast fun b => ⟨edition b, graph b⟩

theorem popOperand_natural : Natural reading popOperand := by
  refine Natural.look (fun _ => rfl) fun b => ?_
  cases b.operands with
  | nil => exact .throw _
  | cons x xs => exact (Natural.modify (by intro _; rfl)).bind fun _ => .pure x

theorem pushOperand_natural (x : Item) : Natural reading (pushOperand x) := .modify fun _ => rfl

theorem assignFrom_natural (keyword op : String) (names type : Item) (values : List Item)
    (i : Nat) : Natural reading (assignFrom keyword op names type values i) := by
  induction values generalizing i with
  | nil => exact .pure _
  | cons value values ih =>
      exact (Natural.lift _).bind fun name => (Natural.modify (by intro _; rfl)).bind fun _ =>
        ih (i + 1)

theorem assign_natural (keyword op : String) : Natural reading (assign keyword op) :=
  popOperand_natural.bind fun values => popOperand_natural.bind fun type =>
    popOperand_natural.bind fun names =>
      (assignFrom_natural keyword op names type values.units 0).bind fun _ => .modify fun _ => rfl

theorem leaveDeclaration_natural (keyword : String) : Natural reading (leaveDeclaration keyword) :=
  (assign_natural keyword "=").bind fun _ => .modify fun _ => rfl

theorem enterAssignment_natural (ts : List Tree) : Natural reading (enterAssignment ts) :=
  (Natural.lift _).bind fun names => (Natural.lift _).bind fun op =>
    (Natural.lift _).bind fun values => (pushOperand_natural names).bind fun _ =>
      (pushOperand_natural _).bind fun _ => (pushOperand_natural values).bind fun _ =>
        assign_natural "" op

theorem isDeclaring_natural : Natural reading isDeclaring := .look (fun _ => rfl) fun _ => .pure _

theorem leaveNames_natural (ts : List Tree) : Natural reading (leaveNames ts) := by
  refine isDeclaring_natural.bind fun declaring => Natural.ite ?_ (.pure _)
  refine Natural.look (fun _ => rfl) fun b => Natural.ite ?_ (.pure _)
  exact (Natural.modify (by intro _; rfl)).bind fun _ => pushOperand_natural _

theorem leaveType_natural (ts : List Tree) : Natural reading (leaveType ts) := by
  refine isDeclaring_natural.bind fun declaring => Natural.ite ?_ (.pure _)
  exact (Natural.lift _).bind fun text => (pushOperand_natural _).bind fun _ => .modify fun _ => rfl

theorem leaveValues_natural (ts : List Tree) : Natural reading (leaveValues ts) := by
  have rest : Natural reading (do
      modify fun b => { b with valuesRead := true }
      if !(← get).typed then pushOperand (.name "guess")
      pushOperand (items ts) : Move Unit) := by
    refine (Natural.modify (by intro _; rfl)).bind fun _ => Natural.look (fun _ => rfl) fun b => ?_
    exact ((pushOperand_natural _).bind fun _ => pushOperand_natural _).ite (pushOperand_natural _)
  refine Natural.look (fun _ => rfl) fun b => Natural.look (fun _ => rfl) fun c =>
    Natural.ite ?_ (.pure _)
  exact Natural.look (fun _ => rfl) fun d => (popOperand_natural.bind fun _ => rest).ite rest

theorem namesLoop_append {k : String} (known : k ∈ nodeKinds) (n : Nat) :
    namesLoop (k ++ toString n) = (k == "l") := by
  have heads : ∀ k ∈ nodeKinds, k.toList ≠ [] ∧ (k.toList.head? == some 'l') = (k == "l") := by
    decide
  obtain ⟨lettered, head⟩ := heads k known
  rw [namesLoop, String.toList_append, List.head?_append_of_ne_nil _ lettered, head]

/-- A block shows the text held back, in both editions. -/
theorem counterpart_block {k k' : String} (late : k ∈ ["b", "t", "e"])
    (early : k' ∈ ["b", "t", "e"]) (n n' : Nat) (held content shape : String) :
    Statement.Counterpart
      (.node (k ++ toString n) (nodeLabel .late held content k (k ++ toString n)) shape)
      (.node (k' ++ toString n') (nodeLabel .early held content k' (k' ++ toString n')) shape) := by
  have blocks : ∀ k ∈ ["b", "t", "e"],
      holdsText k = true ∧ k ∈ nodeKinds ∧ (k == "l") = false := by
    decide
  obtain ⟨holds, known, other⟩ := blocks k late
  obtain ⟨holds', known', other'⟩ := blocks k' early
  refine ⟨rfl, by rw [namesLoop_append known, namesLoop_append known', other, other'],
    if content.isEmpty then held else content, ?_, ?_⟩
  · rw [namesLoop_append known, other]
    simp [nodeLabel, holds]
  · simp [nodeLabel, holds']

theorem counterpart_other {kind : String} (known : kind ∈ ["f", "if", "l"]) (n n' : Nat)
    (held content shape : String) :
    Statement.Counterpart
      (.node (kind ++ toString n)
        (nodeLabel .late held (if kind = "l" then "for " ++ content else content) kind
        (kind ++ toString n)) shape)
      (.node (kind ++ toString n') (nodeLabel .early held content kind (kind ++ toString n'))
      shape) := by
  have others : ∀ k ∈ ["f", "if", "l"], holdsText k = false ∧ k ∈ nodeKinds := by decide
  obtain ⟨holds, member⟩ := others kind known
  refine ⟨rfl, by rw [namesLoop_append member, namesLoop_append member], content, ?_, ?_⟩
  · rw [namesLoop_append member]
    simp [nodeLabel, holds]
  · simp [nodeLabel, holds]

/-- Both editions make a node of the same shape and with the same content. -/
theorem newNode_abreast {kind : String} (known : kind ∈ ["b", "f", "if", "l"])
    (content shape : String) :
    Abreast (newNode kind (if kind = "l" then "for " ++ content else content) shape)
      (newNode kind content shape) := by
  intro b c agrees name b' name' c' madeLate madeEarly
  obtain ⟨k, kindLate, rfl, rewiresLate⟩ := newNode_declares madeLate
  obtain ⟨k', kindEarly, rfl, rewiresEarly⟩ := newNode_declares madeEarly
  refine
    { late := (rewiresLate.same Builder.edition fun _ => rfl).trans agrees.late
      early := (rewiresEarly.same Builder.edition fun _ => rfl).trans agrees.early
      reading := ?_
      nodes := ?_ }
  · rw [rewiresLate.same reading fun _ => rfl, rewiresEarly.same reading fun _ => rfl]
    exact agrees.reading
  · rw [rewiresLate.declarations, rewiresEarly.declarations]
    simp only [Builder.declarations, declared, List.filter_append, agrees.late, agrees.early,
      agrees.held]
    refine List.rel_append agrees.nodes (.cons ?_ .nil)
    by_cases block : kind = "b"
    · subst block
      rw [if_pos rfl] at kindLate kindEarly
      exact counterpart_block kindLate kindEarly _ _ _ content shape
    · rw [if_neg block] at kindLate kindEarly
      subst kindLate kindEarly
      exact counterpart_other (List.mem_of_ne_of_mem block known) _ _ _ content shape

theorem flush_abreast : Abreast flush flush := by
  have cleared : Abreast (modify fun b => { b with held := "" } : Move Unit)
      (modify fun b => { b with held := "" } : Move Unit) :=
    modify_abreast (fun _ => rfl) (fun _ => rfl) fun _ => rfl
  refine Abreast.look fun b c agrees => ?_
  rw [agrees.held]
  exact ((newNode_abreast (by decide) "" "box").bind fun _ _ => cleared).ite cleared

theorem enterFunction_abreast (ts : List Tree) : Abreast (enterFunction ts) (enterFunction ts) :=
  Abreast.read fun text => (newNode_abreast (by decide) text "box").bind fun _ _ =>
    (pushEnd_rewiring _).abreast (pushEnd_rewiring _)

theorem leaveFunction_abreast (ts : List Tree) : Abreast (leaveFunction ts) (leaveFunction ts) :=
  Abreast.read fun text => (newNode_abreast (by decide) (text ++ " end") "box").bind fun _ _ =>
    (Rewiring.pure _).abreast (.pure _)

theorem enterBlock_abreast : Abreast enterBlock enterBlock := by
  rw [enterBlock_eq]
  refine (modify_abreast (by intro _; rfl) (by intro _; rfl) (by intro _; rfl)).bind fun _ _ => ?_
  exact noteBlock_rewiring.abreast noteBlock_rewiring

theorem leaveBlock_abreast : Abreast leaveBlock leaveBlock :=
  (modify_abreast (by intro _; rfl) (by intro _; rfl) (by intro _; rfl)).bind fun _ _ =>
    flush_abreast

theorem enterIf_abreast (ts : List Tree) : Abreast (enterIf ts) (enterIf ts) := by
  have branches (x : Branches) : Abreast (modify fun b => { b with ifs := x :: b.ifs } : Move Unit)
      (modify fun b => { b with ifs := x :: b.ifs } : Move Unit) :=
    modify_abreast (fun _ => rfl) (fun _ => rfl) fun _ => rfl
  have last := (branches .thenElse).ite (p := ts.length = 5) ((Rewiring.pure ()).abreast (.pure ()))
  have rest : Abreast (do
      modify fun b => { b with ifLevels := b.level :: b.ifLevels }
      if ts.length = 3 then modify fun b => { b with ifs := .thenOnly :: b.ifs }
      if ts.length = 5 then modify fun b => { b with ifs := .thenElse :: b.ifs } : Move Unit) (do
      modify fun b => { b with ifLevels := b.level :: b.ifLevels }
      if ts.length = 3 then modify fun b => { b with ifs := .thenOnly :: b.ifs }
      if ts.length = 5 then modify fun b => { b with ifs := .thenElse :: b.ifs } : Move Unit) :=
    (modify_abreast (by intro _; rfl) (by intro _; rfl) (by intro _; rfl)).bind fun _ _ =>
      ((branches .thenOnly).bind fun _ _ => last).ite last
  refine flush_abreast.bind fun _ _ => Abreast.read fun text => ?_
  refine (newNode_abreast (by decide) text "diamond").bind fun name name' => Abreast.edition ?_
  -- Only the late edition notes the node among the firsts.
  refine Abreast.bind (n := pure ()) ((addFirst_rewiring _).abreast (.pure ())) fun _ _ => rest

theorem leaveIf_abreast (ts : List Tree) : Abreast (leaveIf ts) (leaveIf ts) := by
  have popped : Abreast popIf popIf := by
    refine Natural.abreast (popIf_natural (by intro _; rfl) (by intro _ _; rfl)) fun b => ?_
    rw [Builder.perform_popIf]
    cases b.ifs <;> exact ⟨rfl, rfl⟩
  have poppedLevel : Abreast popIfLevel popIfLevel := by
    refine Natural.abreast (popIfLevel_natural (by intro _; rfl) (by intro _ _; rfl)) fun b => ?_
    rw [Builder.perform_popIfLevel]
    cases b.ifLevels <;> exact ⟨rfl, rfl⟩
  rw [leaveIf_eq]
  refine ((closeIf_rewiring ts).abreast (closeIf_rewiring ts)).bind fun _ _ =>
    popped.bind fun _ _ => ?_
  exact poppedLevel.bind fun _ _ => (Rewiring.pure _).abreast (.pure _)

theorem enterFor_abreast (ts : List Tree) : Abreast (enterFor ts) (enterFor ts) := by
  refine flush_abreast.bind fun _ _ => Abreast.read fun condition => Abreast.edition ?_
  refine (@newNode_abreast "l" (by decide) condition "egg").bind fun _ _ => ?_
  exact Aside.abreast (fun _ => ⟨rfl, rfl, rfl⟩) (Rewiring.pure _).aside

theorem leaveFor_abreast : Abreast leaveFor leaveFor := by
  have popped : Aside (popLoopLevel .late) := by
    intro b
    rw [popLoopLevel, Builder.perform_bind, Builder.perform_popForLevel]
    cases b.forLevels <;> exact ⟨rfl, rfl, rfl⟩
  rw [leaveFor_eq]
  refine Abreast.edition ((popped.abreast (Rewiring.pure ()).aside).bind fun _ _ => ?_)
  exact (leaveLoop_rewiring .late).abreast (leaveLoop_rewiring .early)

end Move

open Move

theorem Hook.run_abreast (h : Hook) (ts : List Tree) : Abreast (h.run ts) (h.run ts) := by
  cases h with
  | enterFunction => exact enterFunction_abreast ts
  | leaveFunction => exact leaveFunction_abreast ts
  | enterBlock => exact enterBlock_abreast
  | leaveBlock => exact leaveBlock_abreast
  | enterConst => exact (setPhase_texts .constDecl).abreast (.modify fun _ => rfl)
  | leaveConst => exact (leaveDeclaration_texts "const").abreast (leaveDeclaration_natural "const")
  | enterVar => exact (setPhase_texts .varDecl).abreast (.modify fun _ => rfl)
  | leaveVar => exact (leaveDeclaration_texts "var").abreast (leaveDeclaration_natural "var")
  | enterAssignment => exact (enterAssignment_texts ts).abreast (enterAssignment_natural ts)
  | leaveNames => exact (leaveNames_texts ts).abreast (leaveNames_natural ts)
  | leaveType => exact (leaveType_texts ts).abreast (leaveType_natural ts)
  | leaveValues => exact (leaveValues_texts ts).abreast (leaveValues_natural ts)
  | enterIf => exact enterIf_abreast ts
  | leaveIf => exact leaveIf_abreast ts
  | enterFor => exact enterFor_abreast ts
  | leaveFor => exact leaveFor_abreast

theorem go_abreast (es : List Event) (begun : Option Hook) {b c : Builder} (agrees : b.Agrees c) :
    let late := (Following.go begun b es).trace
    let early := (Following.go begun c es).trace
    List.Forall₂ (fun x y => x.1 = y.1 ∧ x.2.Agrees y.2) (late.take early.length)
    (early.take late.length) := by
  induction es generalizing begun b c with
  | nil => exact .nil
  | cons e es ih =>
      rw [Following.go, Following.go]
      cases Hook.ofEvent? e with
      | none => exact ih begun agrees
      | some p =>
          obtain ⟨h, ts⟩ := p
          dsimp only
          rcases late : b.perform (h.run ts) with ⟨m | u, b'⟩
          · simp
          rcases early : c.perform (h.run ts) with ⟨m | v, c'⟩
          · simp
          have after := Hook.run_abreast h ts b c agrees u b' v c' late early
          simp only [List.length_cons, List.take_succ_cons]
          exact .cons ⟨rfl, after⟩ (ih (some h) after)

/-- The editions follow the walk through a tree side by side. After each hook that both have
completed they have read the same, hold back the same text and have the same blocks and branches
open, and they have made as many nodes, one by one of the same shape and with the same content. -/
theorem editions_agree (t : Tree) :
    let late := ((Builder.new .late).follow t).trace
    let early := ((Builder.new .early).follow t).trace
    List.Forall₂ (fun x y => x.1 = y.1 ∧ x.2.Agrees y.2) (late.take early.length)
    (early.take late.length) :=
  go_abreast t.walk none Builder.Agrees.new

end GoFlow
