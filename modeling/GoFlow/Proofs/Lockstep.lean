import GoFlow.Proofs.Rewiring
import GoFlow.Proofs.Source

/-! Two trees of the same shape, whose leaves differ in their texts only. As long as no declaration
is read, texts go into labels and nowhere else, so a builder takes the same steps on both and is
stopped by the same mishap at the same moment. -/

namespace GoFlow

open Dot (Statement)

/-- What remains of a tree without its texts. -/
inductive Shape where
  | leaf (kind : Kind)
  | node (category : Category) (parts : List Shape)

mutual

def Tree.shape : Tree → Shape
  | .leaf l => .leaf l.kind
  | .node h ts => .node h.category (Tree.shapeAll ts)

def Tree.shapeAll : List Tree → List Shape
  | [] => []
  | t :: ts => t.shape :: Tree.shapeAll ts

end

/-- What remains of an event without the texts of its tree. -/
inductive Cue where
  | enter (category : Category) (parts : List Shape)
  | leave (category : Category) (parts : List Shape)
  | leaf (kind : Kind)

def Event.cue : Event → Cue
  | .enter h ts => .enter h.category (Tree.shapeAll ts)
  | .leave h ts => .leave h.category (Tree.shapeAll ts)
  | .leaf l => .leaf l.kind

namespace Tree

theorem shapeAll_eq_map (ts : List Tree) : shapeAll ts = ts.map shape := by
  induction ts with
  | nil => rfl
  | cons t ts ih => rw [shapeAll, ih, List.map_cons]

mutual

theorem cues_of_shape {t u : Tree} (same : t.shape = u.shape) :
    t.walk.map Event.cue = u.walk.map Event.cue := by
  match t, u with
  | leaf l, leaf m =>
      cases l <;> cases m <;> simpa [shape, walk, Event.cue] using same
  | node h ts, node i us =>
      simp only [shape, Shape.node.injEq] at same
      simp only [walk, List.map_cons, List.map_append, List.map_nil, Event.cue, same.1, same.2,
        cuesAll_of_shape same.2]
  | leaf _, node _ _ => cases same
  | node _ _, leaf _ => cases same

theorem cuesAll_of_shape {ts us : List Tree} (same : shapeAll ts = shapeAll us) :
    (walkAll ts).map Event.cue = (walkAll us).map Event.cue := by
  match ts, us with
  | [], [] => rfl
  | t :: ts, u :: us =>
      simp only [shapeAll, List.cons.injEq] at same
      simp only [walkAll, List.map_append, cues_of_shape same.1, cuesAll_of_shape same.2]
  | [], _ :: _ => cases same
  | _ :: _, [] => cases same

end

end Tree

open GoFlow.Tree (shapeAll)

namespace Move

variable {α β γ : Type}

/-- Two questions are answered by related values, or neither is answered, for the same reason. -/
def Answers (R : α → β → Prop) : Except Mishap α → Except Mishap β → Prop
  | .ok a, .ok b => R a b
  | .error e, .error f => e = f
  | _, _ => False

theorem Answers.map {R : α → β → Prop} {γ δ : Type} {S : γ → δ → Prop} {x : Except Mishap α}
    {y : Except Mishap β} (h : Answers R x y) (f : α → γ) (g : β → δ)
    (next : ∀ a b, R a b → S (f a) (g b)) : Answers S (x.map f) (y.map g) := by
  cases x with
  | ok a =>
      cases y with
      | ok b => exact next a b h
      | error => exact h
  | error e =>
      cases y with
      | ok => exact h
      | error f => exact h

theorem child_of_shape {ts us : List Tree} (same : shapeAll ts = shapeAll us) (i : Nat)
    (asked : String) :
    Answers (fun t u => t.shape = u.shape) (child ts i asked) (child us i asked) := by
  rw [Tree.shapeAll_eq_map, Tree.shapeAll_eq_map] at same
  have at_i : ts[i]?.map Tree.shape = us[i]?.map Tree.shape := by
    rw [← List.getElem?_map, ← List.getElem?_map, same]
  have empty : ts.isEmpty = us.isEmpty := by
    rw [← List.isEmpty_map (f := Tree.shape), same, List.isEmpty_map]
  unfold child
  rw [empty]
  split
  · rfl
  · cases ht : ts[i]? with
    | none =>
        rw [ht] at at_i
        rw [Option.map_eq_none_iff.mp at_i.symm]
        rfl
    | some t =>
        rw [ht] at at_i
        obtain ⟨u, hu, shape⟩ := Option.map_eq_some_iff.mp at_i.symm
        rw [hu]
        exact shape.symm

theorem childText_of_shape {ts us : List Tree} (same : shapeAll ts = shapeAll us) (i : Nat) :
    Answers (fun _ _ => True) (childText ts i) (childText us i) :=
  (child_of_shape same i _).map _ _ fun _ _ _ => trivial

theorem length_everySecond {xs : List α} {ys : List β} (same : xs.length = ys.length) :
    (Tree.everySecond xs).length = (Tree.everySecond ys).length := by
  match xs, ys with
  | [], [] => rfl
  | [_], [_] => rfl
  | _ :: _ :: xs, _ :: _ :: ys =>
      simp only [List.length_cons, Nat.add_right_cancel_iff] at same
      simp only [Tree.everySecond, List.length_cons, length_everySecond same]
  | [], _ :: _ => cases same
  | _ :: _, [] => cases same
  | [_], _ :: _ :: _ => cases same
  | _ :: _ :: _, [_] => cases same

/-- Two groups with as many members. -/
def SameSize (x y : Item) : Prop := ∃ xs ys, x = .group xs ∧ y = .group ys ∧ xs.length = ys.length

theorem childItems_of_shape {ts us : List Tree} (same : shapeAll ts = shapeAll us) (i : Nat) :
    Answers SameSize (childItems ts i) (childItems us i) := by
  refine (child_of_shape same i _).map _ _ fun t u shape => ⟨_, _, rfl, rfl, ?_⟩
  rw [List.length_map, List.length_map]
  apply length_everySecond
  match t, u with
  | .leaf _, .leaf _ => rfl
  | .node _ ts, .node _ us =>
      simp only [Tree.shape, Shape.node.injEq, Tree.shapeAll_eq_map] at shape
      simpa [Tree.children] using congrArg List.length shape.2
  | .leaf _, .node _ _ => cases shape
  | .node _ _, .leaf _ => cases shape

/-- From builders that differ in texts only, and that read no declaration, the two moves come to the
same, and leave such builders behind. -/
def Matches (m n : Move α) : Prop :=
  ∀ b c : Builder, b.bare = c.bare → b.phase = .none →
    (b.perform m).1 = (c.perform n).1 ∧ (b.perform m).2.bare = (c.perform n).2.bare ∧
      (b.perform m).2.phase = .none

theorem Natural.matched {m : Move α} (natural : Natural Builder.bare m)
    (phase : ∀ b : Builder, (b.perform m).2.phase = b.phase) : Matches m m := by
  intro b c same idle
  have first := natural b
  rw [same, natural c] at first
  obtain ⟨outcome, after⟩ := Prod.mk.inj first
  exact ⟨outcome.symm, after.symm, (phase b).trans idle⟩

theorem Rewiring.matched {m : Move α} (h : Rewiring m) : Matches m m :=
  h.natural.matched fun b => (h.rewires b).same Builder.phase fun _ => rfl

namespace Matches

theorem bind {m n : Move α} {f g : α → Move β} (first : Matches m n)
    (next : ∀ a, Matches (f a) (g a)) : Matches (m >>= f) (n >>= g) := by
  intro b c same idle
  obtain ⟨outcome, after, still⟩ := first b c same idle
  rw [Builder.perform_bind, Builder.perform_bind]
  rcases hb : b.perform m with ⟨e | a, b'⟩ <;> rcases hc : c.perform n with ⟨e' | a', c'⟩ <;>
    rw [hb, hc] at outcome <;> rw [hb] at after still <;> rw [hc] at after
  · cases outcome
    exact ⟨rfl, after, still⟩
  · cases outcome
  · cases outcome
  · cases outcome
    exact next a b' c' after still

theorem read {R : α → β → Prop} {x : Except Mishap α} {y : Except Mishap β} {f : α → Move γ}
    {g : β → Move γ} (answers : Answers R x y) (next : ∀ a b, R a b → Matches (f a) (g b)) :
    Matches (liftM x >>= f) (liftM y >>= g) := by
  intro b c same idle
  rw [Builder.perform_bind, Builder.perform_bind, Builder.perform_lift, Builder.perform_lift]
  cases x with
  | ok v =>
      cases y with
      | ok w => exact next v w answers b c same idle
      | error => exact answers.elim
  | error e =>
      cases y with
      | ok => exact answers.elim
      | error e' =>
          cases answers
          exact ⟨rfl, same, idle⟩

theorem step {f : Builder → Builder} (commutes : ∀ b : Builder, f b.bare = (f b).bare)
    (phase : ∀ b, (f b).phase = b.phase) : Matches (modify f : Move Unit) (modify f) :=
  (Natural.modify commutes).matched phase

theorem modify {f g : Builder → Builder}
    (same : ∀ b c : Builder, b.bare = c.bare → (f b).bare = (g c).bare)
    (phase : ∀ b, (f b).phase = b.phase) : Matches (modify f : Move Unit) (modify g) :=
  fun b c h idle => ⟨rfl, same b c h, (phase b).trans idle⟩

theorem ite {p : Prop} [Decidable p] {m n m' n' : Move α} (hm : Matches m m') (hn : Matches n n') :
    Matches (if p then m else n) (if p then m' else n') := by
  split
  · exact hm
  · exact hn

theorem look {f g : Builder → Move α}
    (each : ∀ b c : Builder, b.bare = c.bare → Matches (f b) (g c)) :
    Matches (get >>= f) (get >>= g) := by
  intro b c same idle
  rw [Builder.perform_bind_ok (Builder.perform_get _),
    Builder.perform_bind_ok (Builder.perform_get _)]
  exact each b c same b c same idle

end Matches

theorem emit_matches {s t : Statement} (same : s.unlabelled = t.unlabelled) :
    Matches (emit s) (emit t) := by
  refine Matches.modify (fun b c bare => ?_) fun _ => rfl
  have graph : b.graph.map Statement.unlabelled = c.graph.map Statement.unlabelled :=
    congrArg Builder.graph bare
  calc { b with graph := b.graph ++ [s] }.bare
      = { b.bare with graph := b.graph.map Statement.unlabelled ++ [s.unlabelled] } := by
        simp [Builder.bare]
    _ = { c.bare with graph := c.graph.map Statement.unlabelled ++ [t.unlabelled] } := by
        rw [bare, graph, same]
    _ = { c with graph := c.graph ++ [t] }.bare := by simp [Builder.bare]

theorem newNode_matches (kind content content' shape : String) :
    Matches (newNode kind content shape) (newNode kind content' shape) := by
  rw [newNode_eq, newNode_eq]
  refine (Matches.step (by intro _; rfl) (by intro _; rfl)).bind fun _ => ?_
  refine (nodeKind_rewiring kind).matched.bind fun k => ?_
  apply Matches.look
  intro b c same
  rw [Builder.of_bare same Builder.edition fun _ => rfl,
    Builder.of_bare same Builder.count fun _ => rfl,
    Builder.of_bare same Builder.lasts fun _ => rfl]
  refine (Matches.step (by intro _; rfl) (by intro _; rfl)).bind fun _ =>
    (emit_matches ?_).bind fun _ => ?_
  · rfl
  have drawn := (draw_rewiring.ite (p := c.edition = .late) (.pure ())).matched
  refine ((Rewiring.pure ()).ite (settle_rewiring _)).matched.bind fun _ => drawn.bind fun _ => ?_
  exact (Rewiring.pure _).matched

theorem flush_matches : Matches flush flush := by
  have cleared : Matches (modify fun b => { b with held := "" } : Move Unit)
      (modify fun b => { b with held := "" }) :=
    .step (fun _ => rfl) fun _ => rfl
  apply Matches.look
  intro b c same
  rw [Builder.held_isEmpty_of_bare same]
  exact ((newNode_matches _ _ _ _).bind fun _ => cleared).ite cleared

theorem unit_of_sameSize {x y : Item} (same : SameSize x y) (i : Nat) :
    Answers (fun _ _ => True) (x.unit i) (y.unit i) := by
  obtain ⟨xs, ys, rfl, rfl, length⟩ := same
  simp only [Item.unit, Item.units, Item.isGroup, ↓reduceIte]
  by_cases bound : i < xs.length
  · rw [List.getElem?_eq_getElem bound, List.getElem?_eq_getElem (length ▸ bound)]
    trivial
  · rw [List.getElem?_eq_none (by omega), List.getElem?_eq_none (by omega)]
    rfl

/-- A line is never empty, so once it is noted a text is held back. -/
theorem noteLine_matches (op op' : String) (type name value type' name' value' : Item) :
    Matches
      (modify fun b => { b with held := b.held ++ assignLine "" op type name value } : Move Unit)
      (modify fun b => { b with held := b.held ++ assignLine "" op' type' name' value' }) := by
  have filled (held op : String) (type name value : Item) :
      (held ++ assignLine "" op type name value).isEmpty = false := by
    simp [assignLine, String.isEmpty_eq_false_iff, String.append_eq_empty_iff]
  refine Matches.modify (fun b c same => ?_) fun _ => rfl
  calc { b with held := b.held ++ assignLine "" op type name value }.bare
      = { b.bare with held := "\n" } := by simp [Builder.bare, filled]
    _ = { c.bare with held := "\n" } := by rw [same]
    _ = { c with held := c.held ++ assignLine "" op' type' name' value' }.bare := by
        simp [Builder.bare, filled]

theorem assignFrom_matches {names names' : Item} (same : SameSize names names') (op op' : String)
    (type : Item) {values values' : List Item} (length : values.length = values'.length) (i : Nat) :
    Matches (assignFrom "" op names type values i) (assignFrom "" op' names' type values' i) := by
  induction values generalizing values' i with
  | nil =>
      cases values' with
      | nil => exact (Rewiring.pure _).matched
      | cons => cases length
  | cons value values ih =>
      cases values' with
      | nil => cases length
      | cons value' values' =>
          refine Matches.read (unit_of_sameSize same i) fun name name' _ => ?_
          exact (noteLine_matches op op' _ _ _ _ _ _).bind fun _ => ih (Nat.succ.inj length) (i + 1)

/-- The operands of an assignment are put down and taken up again. -/
theorem perform_assigning (b : Builder) (names values : Item) (op : String) :
    b.perform (do
      pushOperand names
      pushOperand (.name "guess")
      pushOperand values
      assign "" op) =
    b.perform (do
      assignFrom "" op names (.name "guess") values.units 0
      modify fun b => { b with namesRead := false, valuesRead := false }) := rfl

theorem enterAssignment_matches {ts us : List Tree} (same : shapeAll ts = shapeAll us) :
    Matches (enterAssignment ts) (enterAssignment us) := by
  refine Matches.read (childItems_of_shape same 0) fun names names' sameNames => ?_
  refine Matches.read (childText_of_shape same 1) fun op op' _ => ?_
  refine Matches.read (childItems_of_shape same 2) fun values values' sameValues => ?_
  obtain ⟨xs, ys, rfl, rfl, length⟩ := sameValues
  intro b c bare idle
  rw [perform_assigning, perform_assigning]
  refine ((assignFrom_matches sameNames op op' _ length 0).bind fun _ => ?_) b c bare idle
  exact .step (fun _ => rfl) fun _ => rfl

theorem enterFunction_matches {ts us : List Tree} (same : shapeAll ts = shapeAll us) :
    Matches (enterFunction ts) (enterFunction us) :=
  Matches.read (childText_of_shape same 1) fun text text' _ =>
    (newNode_matches "f" text text' "box").bind fun _ => (pushEnd_rewiring _).matched

theorem leaveFunction_matches {ts us : List Tree} (same : shapeAll ts = shapeAll us) :
    Matches (leaveFunction ts) (leaveFunction us) :=
  Matches.read (childText_of_shape same 1) fun _ _ _ =>
    (newNode_matches "b" _ _ "box").bind fun _ => (Rewiring.pure _).matched

theorem enterBlock_matches : Matches enterBlock enterBlock := by
  rw [enterBlock_eq]
  exact (Matches.step (by intro _; rfl) (by intro _; rfl)).bind fun _ => noteBlock_rewiring.matched

theorem leaveBlock_matches : Matches leaveBlock leaveBlock :=
  (Matches.step (by intro _; rfl) (by intro _; rfl)).bind fun _ => flush_matches

theorem enterIf_matches {ts us : List Tree} (same : shapeAll ts = shapeAll us) :
    Matches (enterIf ts) (enterIf us) := by
  have length : ts.length = us.length := by
    simpa [Tree.shapeAll_eq_map] using congrArg List.length same
  have branches (x : Branches) : Matches (modify fun b => { b with ifs := x :: b.ifs } : Move Unit)
      (modify fun b => { b with ifs := x :: b.ifs }) := .step (fun _ => rfl) fun _ => rfl
  have last := (branches .thenElse).ite (p := us.length = 5) (Rewiring.pure ()).matched
  have rest : Matches (do
      modify fun b => { b with ifLevels := b.level :: b.ifLevels }
      if us.length = 3 then modify fun b => { b with ifs := .thenOnly :: b.ifs }
      if us.length = 5 then modify fun b => { b with ifs := .thenElse :: b.ifs } : Move Unit) (do
      modify fun b => { b with ifLevels := b.level :: b.ifLevels }
      if us.length = 3 then modify fun b => { b with ifs := .thenOnly :: b.ifs }
      if us.length = 5 then modify fun b => { b with ifs := .thenElse :: b.ifs }) :=
    (Matches.step (by intro _; rfl) (by intro _; rfl)).bind fun _ =>
      ((branches .thenOnly).bind fun _ => last).ite last
  unfold enterIf
  rw [length]
  refine flush_matches.bind fun _ => Matches.read (childText_of_shape same 1) fun text text' _ => ?_
  refine (newNode_matches "if" text text' "diamond").bind fun name =>
    edition_rewiring.matched.bind fun ed => ?_
  exact ((addFirst_rewiring _).matched.bind fun _ => rest).ite rest

theorem popIf_matches : Matches popIf popIf := by
  refine Natural.matched (popIf_natural (by intro _; rfl) (by intro _ _; rfl)) fun b => ?_
  rw [Builder.perform_popIf]
  cases b.ifs <;> rfl

theorem popIfLevel_matches : Matches popIfLevel popIfLevel := by
  refine Natural.matched (popIfLevel_natural (by intro _; rfl) (by intro _ _; rfl)) fun b => ?_
  rw [Builder.perform_popIfLevel]
  cases b.ifLevels <;> rfl

theorem popForLevel_matches : Matches popForLevel popForLevel := by
  apply Matches.look
  intro b c same
  rw [Builder.of_bare same Builder.forLevels fun _ => rfl]
  cases c.forLevels with
  | nil => exact (Rewiring.throw _).matched
  | cons x xs =>
      exact (Matches.step (by intro _; rfl) (by intro _; rfl)).bind fun _ =>
        (Rewiring.pure x).matched

theorem leaveIf_matches {ts us : List Tree} (same : shapeAll ts = shapeAll us) :
    Matches (leaveIf ts) (leaveIf us) := by
  have length : ts.length = us.length := by
    simpa [Tree.shapeAll_eq_map] using congrArg List.length same
  have closed : Matches (closeIf ts) (closeIf us) := by
    rw [show closeIf ts = closeIf us by rw [closeIf, length]; rfl]
    exact (closeIf_rewiring us).matched
  rw [leaveIf_eq, leaveIf_eq]
  exact closed.bind fun _ => popIf_matches.bind fun _ => popIfLevel_matches.bind fun _ =>
    (Rewiring.pure _).matched

theorem enterFor_matches {ts us : List Tree} (same : shapeAll ts = shapeAll us) :
    Matches (enterFor ts) (enterFor us) := by
  refine flush_matches.bind fun _ => Matches.read (childText_of_shape same 1) fun text text' _ => ?_
  refine edition_rewiring.matched.bind fun ed => ?_
  cases ed with
  | late => exact (newNode_matches "l" _ _ "egg").bind fun _ => .step (fun _ => rfl) fun _ => rfl
  | early => exact (newNode_matches "l" text text' "egg").bind fun _ => (Rewiring.pure _).matched

theorem leaveFor_matches : Matches leaveFor leaveFor := by
  rw [leaveFor_eq]
  refine edition_rewiring.matched.bind fun ed => Matches.bind ?_ fun _ =>
    (leaveLoop_rewiring ed).matched
  cases ed with
  | late => exact popForLevel_matches.bind fun _ => (Rewiring.pure _).matched
  | early => exact (Rewiring.pure _).matched

/-- Outside of declarations a list or a type is passed over. -/
theorem leaveList_matches {h : Hook} (list : h ∈ [Hook.leaveNames, .leaveType, .leaveValues])
    (ts us : List Tree) : Matches (h.run ts) (h.run us) := by
  have passed {b : Builder} (idle : b.phase = .none) (ts : List Tree) : b.perform (h.run ts) =
      (.ok (), b) := by
    have declaring : b.perform isDeclaring = (.ok false, b) := by
      rw [isDeclaring, Builder.perform_bind_ok (Builder.perform_get b), idle]
      rfl
    simp only [List.mem_cons, List.not_mem_nil, or_false] at list
    rcases list with rfl | rfl | rfl
    · rw [Hook.run, leaveNames, Builder.perform_bind_ok declaring]
      rfl
    · rw [Hook.run, leaveType, Builder.perform_bind_ok declaring]
      rfl
    · simp [Hook.run, leaveValues, Builder.perform_bind, idle]
  intro b c same idle
  have idle' : c.phase = .none := (Builder.of_bare same Builder.phase fun _ => rfl).symm.trans idle
  rw [passed idle, passed idle']
  exact ⟨rfl, same, idle⟩

end Move

open Move

def Hook.declaring : List Hook := [.enterConst, .leaveConst, .enterVar, .leaveVar]

theorem Hook.run_matches {h : Hook} (plain : h ∉ Hook.declaring) {ts us : List Tree}
    (same : shapeAll ts = shapeAll us) : Matches (h.run ts) (h.run us) := by
  cases h with
  | enterFunction => exact enterFunction_matches same
  | leaveFunction => exact leaveFunction_matches same
  | enterBlock => exact enterBlock_matches
  | leaveBlock => exact leaveBlock_matches
  | enterConst => exact absurd (by decide) plain
  | leaveConst => exact absurd (by decide) plain
  | enterVar => exact absurd (by decide) plain
  | leaveVar => exact absurd (by decide) plain
  | enterAssignment => exact enterAssignment_matches same
  | leaveNames => exact leaveList_matches (by decide) ts us
  | leaveType => exact leaveList_matches (by decide) ts us
  | leaveValues => exact leaveList_matches (by decide) ts us
  | enterIf => exact enterIf_matches same
  | leaveIf => exact leaveIf_matches same
  | enterFor => exact enterFor_matches same
  | leaveFor => exact leaveFor_matches

/-- What remains of a walk that is followed without the texts in it. -/
def Following.bare (f : Following) : Following :=
  { f with builder := f.builder.bare, trace := f.trace.map fun x => (x.1, x.2.bare) }

/-- The hook of an event, with the shapes of the children, is told by its cue. -/
theorem Hook.ofEvent?_of_cue {e f : Event} (same : e.cue = f.cue) :
    (Hook.ofEvent? e).map (fun p => (p.1, shapeAll p.2)) = (Hook.ofEvent? f).map fun p =>
      (p.1, shapeAll p.2) := by
  cases e <;> cases f <;> simp_all [Event.cue, Hook.ofEvent?, Function.comp_def]

/-- An event that has nothing to do with a declaration. -/
def Event.Undeclaring (e : Event) : Prop :=
  ∀ h ts, Hook.ofEvent? e = some (h, ts) → h ∉ Hook.declaring

theorem go_lockstep {es fs : List Event} (same : es.map Event.cue = fs.map Event.cue)
    (plain : ∀ e ∈ es, e.Undeclaring) (begun : Option Hook) {b c : Builder} (bare : b.bare = c.bare)
    (idle : b.phase = .none) : (Following.go begun b es).bare = (Following.go begun c fs).bare := by
  induction es generalizing fs begun b c with
  | nil =>
      cases fs with
      | nil => simp [Following.go, Following.bare, bare]
      | cons => cases same
  | cons e es ih =>
      cases fs with
      | nil => cases same
      | cons f fs =>
          obtain ⟨cue, cues⟩ := List.cons.inj same
          have rest := @ih fs cues fun d hd => plain d (List.mem_cons_of_mem e hd)
          have hooks := Hook.ofEvent?_of_cue cue
          have here := plain e List.mem_cons_self
          unfold Event.Undeclaring at here
          rw [Following.go, Following.go]
          cases he : Hook.ofEvent? e with
          | none =>
              rw [he] at hooks
              rw [Option.map_eq_none_iff.mp hooks.symm]
              exact rest begun bare idle
          | some p =>
              obtain ⟨h, ts⟩ := p
              rw [he] at hooks
              obtain ⟨⟨k, us⟩, hf, parts⟩ := Option.map_eq_some_iff.mp hooks.symm
              obtain ⟨rfl, shapes⟩ := Prod.mk.inj parts
              rw [hf]
              dsimp only
              obtain ⟨outcome, after, still⟩ :=
                Hook.run_matches (here _ ts he) shapes.symm b c bare idle
              rcases hb : b.perform (k.run ts) with ⟨m | u, b'⟩ <;> rcases hc : c.perform
                (k.run us) with ⟨m' | u', c'⟩ <;>
                rw [hb, hc] at outcome <;> rw [hb] at after still <;> rw [hc] at after
              · cases outcome
                simp only [Following.bare, after]
              · cases outcome
              · cases outcome
              · have later := rest (some k) after still
                simp only [Following.bare, Following.mk.injEq] at later ⊢
                simp only [List.map_cons, later, after, and_self]

/-- The tree holds no declaration of constants or variables. -/
def Tree.Undeclaring (t : Tree) : Prop :=
  ∀ p ∈ t.nodes, p.1.category ∉ [Category.constSpec, .varDecl]

theorem Tree.Undeclaring.events {t : Tree} (plain : t.Undeclaring) :
    ∀ e ∈ t.walk, e.Undeclaring := by
  intro e he h ts hook
  have entered {k : Head} {us : List Tree} (there : Event.enter k us ∈ t.walk) :
      k.category ∉ [Category.constSpec, .varDecl] :=
    plain (k, us) (List.mem_filterMap.mpr ⟨_, there, rfl⟩)
  cases e with
  | leaf l => cases hook
  | enter k us =>
      have other := entered he
      obtain ⟨k', hk, same⟩ := Option.map_eq_some_iff.mp hook
      cases same
      cases hc : k.category <;> simp [hc, Hook.onEnter?, Hook.declaring] at hk other ⊢ <;> subst hk
        <;> decide
  | leave k us =>
      have other := entered (t.entered_iff_left.mpr he)
      obtain ⟨k', hk, same⟩ := Option.map_eq_some_iff.mp hook
      cases same
      cases hc : k.category <;> simp [hc, Hook.onLeave?, Hook.declaring] at hk other ⊢ <;> subst hk
        <;> decide

/-- A builder follows two trees of the same shape in lockstep, if no constants or variables are
declared in them. Both walks are completed, or both are stopped by the same mishap at the same hook;
and after each hook, as well as at last, the builders are the same apart from the labels of nodes
and the text held back. -/
theorem lockstep_of_shape (ed : Edition) {t u : Tree} (same : t.shape = u.shape)
    (plain : t.Undeclaring) :
    let f := (Builder.new ed).follow t
    let g := (Builder.new ed).follow u
    f.mishap = g.mishap ∧ f.begun = g.begun ∧ f.builder.bare = g.builder.bare ∧
      f.trace.map (fun x => (x.1, x.2.bare)) = g.trace.map fun x => (x.1, x.2.bare) := by
  intro f g
  have lockstep : f.bare = g.bare := go_lockstep (Tree.cues_of_shape same) plain.events none rfl rfl
  obtain ⟨builder, begun, mishap, trace⟩ := Following.mk.inj lockstep
  exact ⟨mishap, begun, builder, trace⟩

section

open GoFlow.Tree

/-- A loop and an if statement that has no else. -/
def loopThenIf (name value condition : String) : Tree :=
  of .sourceFile
    [func name [forLoop condition [assign value name], ifThen condition [assign name value]]]

theorem loopThenIf_lockstep :
    (loopThenIf "f" "x" "c").text ≠ (loopThenIf "main" "count" "3 < n").text ∧
      let f := (Builder.new .late).follow (loopThenIf "f" "x" "c")
      let g := (Builder.new .late).follow (loopThenIf "main" "count" "3 < n")
      f.mishap = g.mishap ∧ f.begun = g.begun ∧ f.builder.bare = g.builder.bare ∧
        f.trace.map (fun x => (x.1, x.2.bare)) = g.trace.map fun x => (x.1, x.2.bare) := by
  have plain : (loopThenIf "f" "x" "c").Undeclaring := by
    rw [Undeclaring]
    decide +kernel
  exact ⟨by decide +kernel, lockstep_of_shape .late rfl plain⟩

end

end GoFlow
