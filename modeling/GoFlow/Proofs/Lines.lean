import GoFlow.Proofs.Rewiring
import Mathlib.Data.List.DropRight

/-! The lines of assignments and declarations on their way to the nodes. A line is held back first,
and what is held back becomes the text of a block as a whole. So the texts of the blocks, together
with what is held back, are at any time the lines written so far, in their order. -/

namespace GoFlow

open Dot (Statement)

/-- The text that a block shows, without the name that the early edition adds. -/
def Dot.Statement.blockText (ed : Edition) : Statement → Option String
  | .node name label _ =>
      if name.toList.head? ∈ [some 'b', some 't', some 'e'] then
        match ed with
        | .late => some label
        | .early => some (String.ofList (label.toList.rdrop (name.toList.length + 1)))
      else none
  | _ => none

/-- A hook that was completed, with the children of its node and the builder before and after it. -/
structure Turn where
  hook : Hook
  parts : List Tree
  before : Builder
  after : Builder

/-- The hooks that are completed, one after another. -/
def Builder.turns (b : Builder) : List Event → List Turn
  | [] => []
  | e :: es =>
      match Hook.ofEvent? e with
      | none => b.turns es
      | some (h, ts) =>
          match b.perform (h.run ts) with
          | (.ok _, next) => ⟨h, ts, b, next⟩ :: next.turns es
          | (.error _, _) => []

theorem go_trace (begun : Option Hook) (b : Builder) (es : List Event) :
    (Following.go begun b es).trace = (b.turns es).map fun x => (x.hook, x.after) := by
  induction es generalizing begun b with
  | nil => rfl
  | cons e es ih =>
      rw [Following.go, Builder.turns]
      cases Hook.ofEvent? e with
      | none => exact ih begun b
      | some p =>
          obtain ⟨h, ts⟩ := p
          dsimp only
          generalize b.perform (h.run ts) = r
          obtain ⟨m | u, next⟩ := r
          · rfl
          · rw [List.map_cons, ← ih (some h) next]

namespace Turn

def linesOf (keyword op : String) (names type values : Item) : List String :=
  List.zipWith (Move.assignLine keyword op type) names.units values.units

def declarationLines (keyword : String) : List Item → List String
  | values :: type :: names :: _ => linesOf keyword "=" names type values
  | _ => []

def lines (x : Turn) : List String :=
  match x.hook with
  | .enterAssignment =>
      match Move.childItems x.parts 0, Move.childText x.parts 1, Move.childItems x.parts 2 with
      | .ok names, .ok op, .ok values => linesOf "" op names (.name "guess") values
      | _, _, _ => []
  | .leaveConst => declarationLines "const" x.before.operands
  | .leaveVar => declarationLines "var" x.before.operands
  | _ => []

/-- The texts of the blocks that the turn makes. The end of a function is no such block. -/
def blocks (x : Turn) : List String :=
  if x.hook = .leaveFunction then []
  else (x.after.graph.drop x.before.graph.length).filterMap (Statement.blockText x.before.edition)

end Turn

namespace Builder

/-- From one builder to another, what is held back and the lines have become the texts of new blocks
and what is held back then. -/
def Carries (b c : Builder) (lines : List String) : Prop :=
  c.edition = b.edition ∧ ∃ added, c.graph = b.graph ++ added ∧
    String.join (added.filterMap (Statement.blockText b.edition)) ++ c.held =
      b.held ++ String.join lines

theorem Carries.trans {b c d : Builder} {xs ys : List String} (first : b.Carries c xs)
    (second : c.Carries d ys) : b.Carries d (xs ++ ys) := by
  obtain ⟨edition, added, graph, text⟩ := first
  obtain ⟨edition', added', graph', text'⟩ := second
  refine ⟨edition'.trans edition, added ++ added', by rw [graph', graph, List.append_assoc], ?_⟩
  calc String.join ((added ++ added').filterMap (Statement.blockText b.edition)) ++ d.held
      = String.join (added.filterMap (Statement.blockText b.edition)) ++
          (String.join (added'.filterMap (Statement.blockText c.edition)) ++ d.held) := by
        rw [List.filterMap_append, String.join_append, String.append_assoc, edition]
    _ = String.join (added.filterMap (Statement.blockText b.edition)) ++ c.held ++
          String.join ys := by
        rw [text', String.append_assoc]
    _ = b.held ++ String.join (xs ++ ys) := by rw [text, String.join_append, String.append_assoc]

/-- Nothing but edges is added, and nothing else is held back. -/
def Wires (b c : Builder) : Prop :=
  c.edition = b.edition ∧ c.held = b.held ∧
    ∃ added, c.graph = b.graph ++ added ∧ ∀ s ∈ added, s.declares = none

theorem Wires.refl (b : Builder) : b.Wires b := ⟨rfl, rfl, [], by rw [List.append_nil], by simp⟩

theorem Wires.trans {b c d : Builder} (first : b.Wires c) (second : c.Wires d) : b.Wires d := by
  obtain ⟨edition, held, added, graph, edges⟩ := first
  obtain ⟨edition', held', added', graph', edges'⟩ := second
  refine ⟨edition'.trans edition, held'.trans held, added ++ added', ?_, ?_⟩
  · rw [graph', graph, List.append_assoc]
  · intro s hs
    rcases List.mem_append.mp hs with early | late
    · exact edges s early
    · exact edges' s late

theorem Rewires.wires {b c : Builder} (h : b.Rewires c) : b.Wires c :=
  ⟨h.same Builder.edition fun _ => rfl, h.same Builder.held fun _ => rfl, h.2⟩

theorem filterMap_blockText {ed : Edition} {added : List Statement}
    (edges : ∀ s ∈ added, s.declares = none) : added.filterMap (Statement.blockText ed) = [] := by
  refine List.filterMap_eq_nil_iff.mpr ?_
  intro s hs
  have edge := edges s hs
  cases s with
  | node name label shape => cases edge
  | setting key value => rfl
  | edge tail head attributes => rfl

theorem Wires.carries {b c : Builder} (h : b.Wires c) : b.Carries c [] := by
  obtain ⟨edition, held, added, graph, edges⟩ := h
  refine ⟨edition, added, graph, ?_⟩
  rw [filterMap_blockText edges, held]
  simp

end Builder

namespace Move

open Builder (Carries Wires)

variable {α β : Type}

/-- The move adds edges at most and leaves what is held back as it is. -/
def Wiring (m : Move α) : Prop := ∀ b : Builder, b.Wires (b.perform m).2

theorem Wiring.of {m : Move α} (h : Wiring m) {b c : Builder} {r : Except Mishap α}
    (done : b.perform m = (r, c)) : b.Wires c := by
  have wires := h b
  rw [done] at wires
  exact wires

theorem Wiring.bind {m : Move α} {f : α → Move β} (first : Wiring m) (next : ∀ a, Wiring (f a)) :
    Wiring (m >>= f) := by
  intro b
  have wires := first b
  rw [Builder.perform_bind]
  rcases h : b.perform m with ⟨e | a, c⟩
  · rw [h] at wires
    exact wires
  · rw [h] at wires
    exact wires.trans (next a c)

theorem Looks.wiring {m : Move α} (h : Looks m) : Wiring m := by
  intro b
  rw [h b]
  exact Wires.refl b

theorem Wiring.ite {p : Prop} [Decidable p] {m n : Move α} (hm : Wiring m) (hn : Wiring n) :
    Wiring (if p then m else n) := by
  split
  · exact hm
  · exact hn

theorem Wiring.modify {f : Builder → Builder}
    (same : ∀ b, (f b).edition = b.edition ∧ (f b).held = b.held ∧ (f b).graph = b.graph) :
    Wiring (modify f : Move Unit) := by
  intro b
  obtain ⟨edition, held, graph⟩ := same b
  exact ⟨edition, held, [], by rw [List.append_nil]; exact graph, by simp⟩

theorem Wiring.pure (a : α) : Wiring (Pure.pure a) := (Looks.pure a).wiring

theorem Wiring.lift (x : Except Mishap α) : Wiring (liftM x) := (Looks.lift x).wiring

theorem Rewiring.wiring {m : Move α} (h : Rewiring m) : Wiring m := fun b => (h.rewires b).wires

theorem popOperand_wiring : Wiring popOperand := by
  intro b
  rw [Builder.perform_popOperand]
  cases b.operands <;> exact ⟨rfl, rfl, [], by rw [List.append_nil], by simp⟩

theorem popIf_wiring : Wiring popIf := by
  intro b
  rw [Builder.perform_popIf]
  cases b.ifs <;> exact ⟨rfl, rfl, [], by rw [List.append_nil], by simp⟩

theorem popIfLevel_wiring : Wiring popIfLevel := by
  intro b
  rw [Builder.perform_popIfLevel]
  cases b.ifLevels <;> exact ⟨rfl, rfl, [], by rw [List.append_nil], by simp⟩

theorem popForLevel_wiring : Wiring popForLevel := by
  intro b
  rw [Builder.perform_popForLevel]
  cases b.forLevels <;> exact ⟨rfl, rfl, [], by rw [List.append_nil], by simp⟩

theorem pushOperand_wiring (x : Item) : Wiring (pushOperand x) :=
  Wiring.modify fun _ => ⟨rfl, rfl, rfl⟩

/-- What is held back is carried on by a move that is done, and no line is written. -/
def Steady (m : Move α) : Prop :=
  ∀ (b : Builder) (a : α) (c : Builder), b.perform m = (.ok a, c) → b.Carries c []

theorem Wiring.steady {m : Move α} (h : Wiring m) : Steady m := by
  intro b a c done
  exact (h.of done).carries

theorem Steady.bind {m : Move α} {f : α → Move β} (first : Steady m) (next : ∀ a, Steady (f a)) :
    Steady (m >>= f) := by
  intro b a d done
  obtain ⟨x, c, before, after⟩ := Builder.of_perform_bind done
  exact (first b x c before).trans (next x c a d after)

theorem head?_append_toString {k : String} (lettered : k.toList ≠ []) (n : Nat) :
    (k ++ toString n).toList.head? = k.toList.head? := by
  rw [String.toList_append, List.head?_append_of_ne_nil _ lettered]

theorem blockText_other {kind : String} (other : kind ∈ ["f", "if", "l"]) (ed : Edition) (n : Nat)
    (label shape : String) :
    (Statement.node (kind ++ toString n) label shape).blockText ed = none := by
  have apart : ∀ k ∈ ["f", "if", "l"], k.toList ≠ [] ∧
      k.toList.head? ∉ [some 'b', some 't', some 'e'] := by
    decide
  obtain ⟨lettered, outside⟩ := apart kind other
  simp only [Statement.blockText, head?_append_toString lettered, if_neg outside]

theorem blockText_block {kind : String} (block : kind ∈ ["b", "t", "e"]) (ed : Edition) (n : Nat)
    (held shape : String) :
    (Statement.node (kind ++ toString n) (nodeLabel ed held "" kind (kind ++ toString n))
      shape).blockText ed = some held := by
  have shown : ∀ k ∈ ["b", "t", "e"], holdsText k = true ∧ k.toList ≠ [] ∧
      k.toList.head? ∈ [some 'b', some 't', some 'e'] := by decide
  obtain ⟨holds, lettered, inside⟩ := shown kind block
  simp only [Statement.blockText, head?_append_toString lettered, if_pos inside]
  cases ed with
  | late => simp [nodeLabel, holds]
  | early => simp [nodeLabel, holds, List.rdrop]

/-- The nodes of functions, conditions and loops show none of what is held back. -/
theorem newNode_steady {kind : String} (other : kind ∈ ["f", "if", "l"]) (content shape : String) :
    Steady (newNode kind content shape) := by
  intro b name c made
  have apart : ∀ k ∈ ["f", "if", "l"], k ≠ "b" := by decide
  obtain ⟨k, member, rfl, rewires⟩ := newNode_declares made
  rw [if_neg (apart kind other)] at member
  subst member
  refine Carries.trans (?_ : b.Carries _ []) rewires.wires.carries
  refine ⟨rfl, [_], rfl, ?_⟩
  rw [List.filterMap_cons_none (blockText_other other _ _ _ _)]
  simp [declared]

/-- What is held back becomes the text of a block, and nothing is held back any more. -/
theorem flush_steady : Steady flush := by
  intro b u c done
  unfold flush at done
  rw [Builder.perform_bind_ok (Builder.perform_get b)] at done
  by_cases empty : b.held.isEmpty
  · simp only [empty, Bool.not_true, Bool.false_eq_true, if_false] at done
    cases done
    have blank : b.held = "" := String.isEmpty_iff.mp empty
    exact ⟨rfl, [], by rw [List.append_nil], by simp [blank]⟩
  · simp only [empty, Bool.not_false, if_true] at done
    obtain ⟨name, d, made, cleared⟩ := Builder.of_perform_bind done
    cases cleared
    obtain ⟨k, member, rfl, rewires⟩ := newNode_declares made
    obtain ⟨edition, held, added, graph, edges⟩ := rewires.wires
    rw [if_pos rfl] at member
    refine ⟨edition, _ :: added, by rw [graph, declared, List.append_assoc]; rfl, ?_⟩
    rw [List.filterMap_cons_some (blockText_block member _ _ _ _),
      Builder.filterMap_blockText edges]
    simp

theorem enterFunction_steady (ts : List Tree) : Steady (enterFunction ts) :=
  (Wiring.lift _).steady.bind fun text => (newNode_steady (by decide) text "box").bind fun name =>
    (pushEnd_rewiring _).wiring.steady

theorem leaveFunction_held {ts : List Tree} {b c : Builder} {u : Unit}
    (done : b.perform (leaveFunction ts) = (.ok u, c)) : c.held = b.held := by
  obtain ⟨text, d, asked, done⟩ := Builder.of_perform_bind done
  obtain ⟨name, e, made, returned⟩ := Builder.of_perform_bind done
  have looked := (Wiring.lift _).of asked
  obtain ⟨k, -, -, rewires⟩ := newNode_declares made
  cases returned
  exact (rewires.same Builder.held fun _ => rfl).trans looked.2.1

theorem enterBlock_wiring : Wiring enterBlock :=
  (Wiring.modify (by intro _; exact ⟨rfl, rfl, rfl⟩)).bind fun _ => noteBlock_rewiring.wiring

theorem leaveBlock_steady : Steady leaveBlock :=
  (Wiring.modify (by intro _; exact ⟨rfl, rfl, rfl⟩)).steady.bind fun _ => flush_steady

theorem enterIf_steady (ts : List Tree) : Steady (enterIf ts) := by
  have branches (x : Branches) : Wiring
      (modify fun b => { b with ifs := x :: b.ifs } : Move Unit) :=
    Wiring.modify fun _ => ⟨rfl, rfl, rfl⟩
  have rest : Wiring (do
      modify fun b => { b with ifLevels := b.level :: b.ifLevels }
      if ts.length = 3 then modify fun b => { b with ifs := .thenOnly :: b.ifs }
      if ts.length = 5 then modify fun b => { b with ifs := .thenElse :: b.ifs } : Move Unit) := by
    refine (Wiring.modify (by intro _; exact ⟨rfl, rfl, rfl⟩)).bind fun _ => ?_
    have last := (branches .thenElse).ite (p := ts.length = 5) (Wiring.pure ())
    exact ((branches .thenOnly).bind fun _ => last).ite last
  refine flush_steady.bind fun _ => (Wiring.lift _).steady.bind fun text => ?_
  refine (newNode_steady (by decide) text "diamond").bind fun name =>
    edition_rewiring.wiring.steady.bind fun ed => ?_
  exact (((addFirst_rewiring _).wiring.bind fun _ => rest).ite rest).steady

theorem leaveIf_wiring (ts : List Tree) : Wiring (leaveIf ts) := by
  rw [leaveIf_eq]
  refine (closeIf_rewiring ts).wiring.bind fun _ => popIf_wiring.bind fun _ => ?_
  exact popIfLevel_wiring.bind fun _ => Wiring.pure _

theorem enterFor_steady (ts : List Tree) : Steady (enterFor ts) := by
  refine flush_steady.bind fun _ => (Wiring.lift _).steady.bind fun condition => ?_
  apply edition_rewiring.wiring.steady.bind
  intro ed
  cases ed with
  | late =>
      refine (newNode_steady (by decide) _ _).bind fun _ => Wiring.steady ?_
      exact Wiring.modify fun _ => ⟨rfl, rfl, rfl⟩
  | early => exact (newNode_steady (by decide) _ _).bind fun _ => (Wiring.pure _).steady

theorem leaveFor_wiring : Wiring leaveFor := by
  rw [leaveFor_eq]
  refine edition_rewiring.wiring.bind fun ed => Wiring.bind ?_ fun _ =>
    (leaveLoop_rewiring ed).wiring
  cases ed with
  | late => exact popForLevel_wiring.bind fun _ => Wiring.pure _
  | early => exact Wiring.pure _

theorem setPhase_wiring (p : Phase) : Wiring (setPhase p) := Wiring.modify fun _ => ⟨rfl, rfl, rfl⟩

theorem isDeclaring_looks : Looks isDeclaring := fun _ => rfl

theorem leaveNames_wiring (ts : List Tree) : Wiring (leaveNames ts) := by
  refine isDeclaring_looks.wiring.bind fun declaring => Wiring.ite ?_ (Wiring.pure _)
  refine Looks.get.wiring.bind fun b => Wiring.ite ?_ (Wiring.pure _)
  exact (Wiring.modify (by intro _; exact ⟨rfl, rfl, rfl⟩)).bind fun _ => pushOperand_wiring _

theorem leaveType_wiring (ts : List Tree) : Wiring (leaveType ts) := by
  refine isDeclaring_looks.wiring.bind fun declaring => Wiring.ite ?_ (Wiring.pure _)
  refine (Wiring.lift _).bind fun text => (pushOperand_wiring _).bind fun _ => ?_
  exact Wiring.modify fun _ => ⟨rfl, rfl, rfl⟩

theorem leaveValues_wiring (ts : List Tree) : Wiring (leaveValues ts) := by
  have rest : Wiring (do
      modify fun b => { b with valuesRead := true }
      if !(← get).typed then pushOperand (.name "guess")
      pushOperand (items ts) : Move Unit) := by
    refine (Wiring.modify (by intro _; exact ⟨rfl, rfl, rfl⟩)).bind fun _ =>
      Looks.get.wiring.bind fun b => ?_
    exact ((pushOperand_wiring _).bind fun _ => pushOperand_wiring _).ite (pushOperand_wiring _)
  refine Looks.get.wiring.bind fun b => Looks.get.wiring.bind fun c => Wiring.ite ?_ (Wiring.pure _)
  exact Looks.get.wiring.bind fun d => (popOperand_wiring.bind fun _ => rest).ite rest

/-- The lines from a place on are held back, one for each value, and there are names for all. -/
theorem assignFrom_held {keyword op : String} {names type : Item} {values : List Item} {i : Nat}
    {b c : Builder} {u : Unit}
    (done : b.perform (assignFrom keyword op names type values i) = (.ok u, c)) :
    values.length ≤ names.units.length - i ∧
      c = { b with held := b.held ++
        String.join (List.zipWith (assignLine keyword op type) (names.units.drop i) values) } := by
  induction values generalizing i b with
  | nil =>
      cases done
      simp
  | cons value values ih =>
      obtain ⟨name, d, asked, done⟩ := Builder.of_perform_bind done
      rw [Builder.perform_lift] at asked
      obtain ⟨v, e, noted, done⟩ := Builder.of_perform_bind done
      cases noted
      obtain ⟨found, rfl⟩ := Prod.mk.inj asked
      have there : names.units[i]? = some name := by
        unfold Item.unit at found
        split at found
        · rename_i x hx
          cases found
          exact hx
        · cases found
      obtain ⟨bound, at_i⟩ := List.getElem?_eq_some_iff.mp there
      obtain ⟨fits, rfl⟩ := ih done
      refine ⟨by rw [List.length_cons]; omega, ?_⟩
      rw [List.drop_eq_getElem_cons bound, at_i, List.zipWith_cons_cons, String.join_cons,
        String.append_assoc]

/-- The three topmost operands make up the lines that are held back. -/
theorem assign_done {keyword op : String} {b c : Builder} {u : Unit}
    (done : b.perform (assign keyword op) = (.ok u, c)) :
    ∃ values type names rest, b.operands = values :: type :: names :: rest ∧
      values.units.length ≤ names.units.length ∧
      c = { b with
        operands := rest
        held := b.held ++ String.join (Turn.linesOf keyword op names type values)
        namesRead := false
        valuesRead := false } := by
  obtain ⟨values, d, popped, done⟩ := Builder.of_perform_bind done
  obtain ⟨type, e, popped', done⟩ := Builder.of_perform_bind done
  obtain ⟨names, f, popped'', done⟩ := Builder.of_perform_bind done
  obtain ⟨v, g, assigned, cleared⟩ := Builder.of_perform_bind done
  cases cleared
  rw [Builder.perform_popOperand] at popped popped' popped''
  cases hb : b.operands with
  | nil => rw [hb] at popped; cases popped
  | cons x xs =>
      rw [hb] at popped
      cases popped
      cases xs with
      | nil => cases popped'
      | cons y ys =>
          cases popped'
          cases ys with
          | nil => cases popped''
          | cons z zs =>
              cases popped''
              obtain ⟨fits, rfl⟩ := assignFrom_held assigned
              exact ⟨values, type, names, zs, rfl, fits, rfl⟩

theorem assign_carries {keyword op : String} {b c : Builder} {u : Unit}
    (done : b.perform (assign keyword op) = (.ok u, c)) :
    ∃ values type names rest, b.operands = values :: type :: names :: rest ∧
      b.Carries c (Turn.linesOf keyword op names type values) := by
  obtain ⟨values, type, names, rest, operands, -, rfl⟩ := assign_done done
  exact ⟨values, type, names, rest, operands, rfl, [], by rw [List.append_nil], by simp⟩

theorem leaveDeclaration_carries {keyword : String} {b c : Builder} {u : Unit}
    (done : b.perform (leaveDeclaration keyword) = (.ok u, c)) :
    b.Carries c (Turn.declarationLines keyword b.operands) := by
  obtain ⟨v, d, assigned, cleared⟩ := Builder.of_perform_bind done
  cases cleared
  obtain ⟨values, type, names, rest, operands, carries⟩ := assign_carries assigned
  rw [operands]
  exact carries

end Move

open Move

theorem Turn.carries {h : Hook} {ts : List Tree} {b c : Builder} {u : Unit}
    (done : b.perform (h.run ts) = (.ok u, c)) :
    String.join (blocks ⟨h, ts, b, c⟩) ++ c.held = b.held ++ String.join (lines ⟨h, ts, b, c⟩) := by
  have made {xs : List String} (other : h ≠ .leaveFunction) (carries : b.Carries c xs) :
      String.join (blocks ⟨h, ts, b, c⟩) ++ c.held = b.held ++ String.join xs := by
    obtain ⟨-, added, graph, text⟩ := carries
    simp only [blocks, if_neg other, graph, List.drop_left]
    exact text
  cases h with
  | enterFunction => exact made (by decide) (enterFunction_steady ts b u c done)
  | leaveFunction => simp [blocks, lines, leaveFunction_held done]
  | enterBlock => exact made (by decide) (enterBlock_wiring.steady b u c done)
  | leaveBlock => exact made (by decide) (leaveBlock_steady b u c done)
  | enterConst => exact made (by decide) ((setPhase_wiring .constDecl).steady b u c done)
  | leaveConst => exact made (by decide) (leaveDeclaration_carries done)
  | enterVar => exact made (by decide) ((setPhase_wiring .varDecl).steady b u c done)
  | leaveVar => exact made (by decide) (leaveDeclaration_carries done)
  | enterAssignment =>
      apply made (by decide)
      obtain ⟨names, d, namesRead, done⟩ := Builder.of_perform_bind done
      obtain ⟨op, e, opRead, done⟩ := Builder.of_perform_bind done
      obtain ⟨values, f, valuesRead, done⟩ := Builder.of_perform_bind done
      rw [Builder.perform_lift] at namesRead opRead valuesRead
      obtain ⟨hn, rfl⟩ := Prod.mk.inj namesRead
      obtain ⟨ho, rfl⟩ := Prod.mk.inj opRead
      obtain ⟨hv, rfl⟩ := Prod.mk.inj valuesRead
      rw [Builder.perform_bind_ok (Builder.perform_pushOperand _ _),
        Builder.perform_bind_ok (Builder.perform_pushOperand _ _),
        Builder.perform_bind_ok (Builder.perform_pushOperand _ _)] at done
      obtain ⟨values', type, names', rest, operands, carries⟩ := assign_carries done
      cases operands
      simp only [lines, hn, ho, hv]
      exact carries
  | leaveNames => exact made (by decide) ((leaveNames_wiring ts).steady b u c done)
  | leaveType => exact made (by decide) ((leaveType_wiring ts).steady b u c done)
  | leaveValues => exact made (by decide) ((leaveValues_wiring ts).steady b u c done)
  | enterIf => exact made (by decide) (enterIf_steady ts b u c done)
  | leaveIf => exact made (by decide) ((leaveIf_wiring ts).steady b u c done)
  | enterFor => exact made (by decide) (enterFor_steady ts b u c done)
  | leaveFor => exact made (by decide) (leaveFor_wiring.steady b u c done)

/-- What is held back at last, of that which is held back at first. -/
def Turn.heldAfter (held : String) (turns : List Turn) : String :=
  turns.getLast?.elim held fun x => x.after.held

/-- The turns of a walk, taken together, carry what was held back at first and all lines on. -/
theorem turns_carry (b : Builder) (es : List Event) (n : Nat) :
    String.join (((b.turns es).take n).flatMap Turn.blocks) ++
        Turn.heldAfter b.held ((b.turns es).take n) =
      b.held ++ String.join (((b.turns es).take n).flatMap Turn.lines) := by
  induction es generalizing b n with
  | nil => simp [Builder.turns, Turn.heldAfter]
  | cons e es ih =>
      rw [Builder.turns]
      cases Hook.ofEvent? e with
      | none => exact ih b n
      | some p =>
          obtain ⟨h, ts⟩ := p
          dsimp only
          rcases done : b.perform (h.run ts) with ⟨m | u, c⟩
          · simp [Turn.heldAfter]
          · cases n with
            | zero => simp [Turn.heldAfter]
            | succ n =>
                have last : Turn.heldAfter b.held (⟨h, ts, b, c⟩ :: (c.turns es).take n) =
                    Turn.heldAfter c.held ((c.turns es).take n) := by
                  rw [Turn.heldAfter, Turn.heldAfter, List.getLast?_cons]
                  cases ((c.turns es).take n).getLast? <;> rfl
                rw [List.take_succ_cons, List.flatMap_cons, List.flatMap_cons, String.join_append,
                  String.join_append, last, String.append_assoc, ih c n, ← String.append_assoc,
                  Turn.carries done, String.append_assoc]

/-- After each hook that is completed, in either edition: the texts of the blocks made so far, in
their order, and what is held back are together the lines written so far, in their order. -/
theorem lines_kept (ed : Edition) (t : Tree) (n : Nat) :
    let turns := ((Builder.new ed).turns t.walk).take n
    (turns.map fun x => (x.hook, x.after)) = ((Builder.new ed).follow t).trace.take n ∧
      String.join (turns.flatMap Turn.blocks) ++ Turn.heldAfter "" turns =
        String.join (turns.flatMap Turn.lines) := by
  intro turns
  constructor
  · rw [Builder.follow, go_trace, List.map_take]
  · have carried := turns_carry (Builder.new ed) t.walk n
    rwa [show (Builder.new ed).held = "" from rfl, String.empty_append] at carried

end GoFlow
