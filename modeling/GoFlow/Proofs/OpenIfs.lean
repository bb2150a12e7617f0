import GoFlow.Proofs.Depths
import GoFlow.Proofs.Grammatical
import Mathlib.Data.List.Induction

/-! The notes that a builder keeps on the if statements that are open. Only entering and leaving an
if statement changes them: what is noted depends on the number of its children, and leaving takes
off whatever was noted last. -/

namespace GoFlow

open Move Builder

namespace Move

variable {α β γ : Type} {view : Builder → γ} {f : γ → γ}

/-- Where the move is completed, what the view shows has changed by the function. -/
def Tracks (view : Builder → γ) (f : γ → γ) (m : Move α) : Prop :=
  ∀ (b c : Builder) (a : α), b.perform m = (.ok a, c) → view c = f (view b)

/-- The move leaves alone what the view shows. -/
abbrev Spares (view : Builder → γ) (m : Move α) : Prop := Tracks view id m

namespace Tracks

theorem after {m : Move α} {g : α → Move β} (first : Spares view m)
    (next : ∀ a, Tracks view f (g a)) : Tracks view f (m >>= g) := by
  intro b c v done
  obtain ⟨a, d, early, late⟩ := of_perform_bind done
  rw [next a d c v late, first b d a early]
  rfl

theorem before {m : Move α} {g : α → Move β} (first : Tracks view f m)
    (next : ∀ a, Spares view (g a)) : Tracks view f (m >>= g) := by
  intro b c v done
  obtain ⟨a, d, early, late⟩ := of_perform_bind done
  rw [next a d c v late, first b d a early]
  rfl

theorem modify {g : Builder → Builder} (changed : ∀ b, view (g b) = f (view b)) :
    Tracks view f (modify g : Move Unit) := by
  intro b c a done
  cases done
  exact changed b

theorem ite {p : Prop} [Decidable p] {m n : Move α} (hm : Tracks view f m) (hn : Tracks view f n) :
    Tracks view f (if p then m else n) := by
  split
  · exact hm
  · exact hn

end Tracks

/-- The view shows no text, no node and no edge. -/
structure Inner (view : Builder → γ) : Prop where
  blank : ∀ b : Builder, view b.blank = view b
  frame : ∀ b : Builder, view b.frame = view b
  nodes : ∀ (b : Builder) (names : List String), view { b with nodes := names } = view b

namespace Inner

theorem texts {m : Move α} (inner : Inner view) (h : Texts m) : Spares view m := fun _ _ _ done =>
  h.same done view inner.blank

theorem rewiring {m : Move α} (inner : Inner view) (h : Rewiring m) : Spares view m :=
  fun _ _ _ done => (h.of done).same view inner.frame

theorem newNode (inner : Inner view) (kind content shape : String) :
    Spares view (newNode kind content shape) := by
  intro b c name done
  obtain ⟨_, _, _, rewires⟩ := newNode_declares done
  rw [rewires.same view inner.frame, ← inner.frame]
  exact (inner.frame { b with nodes := b.nodes ++ [name] }).trans (inner.nodes b _)

theorem flush (inner : Inner view) : Spares view flush := by
  have cleared : Texts (modify fun b => { b with held := "" } : Move Unit) :=
    fun _ => ⟨rfl, .inr (.inl rfl)⟩
  refine (inner.texts Looks.get.texts).after fun b => ?_
  exact ((inner.newNode "b" "" "box").after fun _ => inner.texts cleared).ite (inner.texts cleared)

end Inner

end Move

/-- The hooks of what is noted while it is open. -/
def Hook.nesting : List Hook := [.enterBlock, .leaveBlock, .enterIf, .leaveIf, .enterFor, .leaveFor]

/-- The other hooks make nodes and texts only. -/
theorem Hook.run_spares {γ : Type} {view : Builder → γ} (inner : Inner view) (h : Hook)
    (other : h ∉ nesting) (ts : List Tree) : Spares view (h.run ts) := by
  cases h with
  | enterFunction =>
      refine (inner.rewiring (.lift _)).after fun name => (inner.newNode _ _ _).after fun node => ?_
      exact inner.rewiring (pushEnd_rewiring _)
  | leaveFunction =>
      refine (inner.rewiring (.lift _)).after fun name => (inner.newNode _ _ _).after fun node => ?_
      exact inner.rewiring (.pure _)
  | enterConst => exact inner.texts (setPhase_texts .constDecl)
  | leaveConst => exact inner.texts (leaveDeclaration_texts "const")
  | enterVar => exact inner.texts (setPhase_texts .varDecl)
  | leaveVar => exact inner.texts (leaveDeclaration_texts "var")
  | enterAssignment => exact inner.texts (enterAssignment_texts ts)
  | leaveNames => exact inner.texts (leaveNames_texts ts)
  | leaveType => exact inner.texts (leaveType_texts ts)
  | leaveValues => exact inner.texts (leaveValues_texts ts)
  | enterBlock | leaveBlock | enterIf | leaveIf | enterFor | leaveFor =>
      exact absurd (by decide) other

def ifNote (us : List Tree) : List Branches :=
  if us.length = 3 then [.thenOnly] else if us.length = 5 then [.thenElse] else []

def branchesOf (us : List Tree) : Branches :=
  if PartName.among (.kind .kwElse) us then .thenElse else .thenOnly

namespace Move

variable {γ : Type} {view : Builder → γ}

theorem ifs_inner : Inner Builder.ifs := ⟨fun _ => rfl, fun _ => rfl, fun _ _ => rfl⟩

theorem popIf_tracks : Tracks Builder.ifs List.tail popIf := by
  intro b c x done
  rw [perform_popIf] at done
  cases ifs : b.ifs with
  | nil => rw [ifs] at done; cases done
  | cons x xs =>
      rw [ifs] at done
      cases done
      rfl

theorem popIfLevel_spares
    (blind : ∀ (b : Builder) (levels : List Int), view { b with ifLevels := levels } = view b) :
    Spares view popIfLevel := by
  intro b c n done
  rw [perform_popIfLevel] at done
  cases levels : b.ifLevels with
  | nil => rw [levels] at done; cases done
  | cons x xs =>
      rw [levels] at done
      cases done
      exact blind b xs

theorem popForLevel_spares
    (blind : ∀ (b : Builder) (levels : List Int), view { b with forLevels := levels } = view b) :
    Spares view popForLevel := by
  intro b c n done
  rw [perform_popForLevel] at done
  cases levels : b.forLevels with
  | nil => rw [levels] at done; cases done
  | cons x xs =>
      rw [levels] at done
      cases done
      exact blind b xs

theorem enterIf_tracks (ts : List Tree) : Tracks Builder.ifs (ifNote ts ++ ·) (enterIf ts) := by
  have silent : Spares Builder.ifs (pure () : Move Unit) := ifs_inner.rewiring (.pure _)
  have push (x : Branches) : Tracks Builder.ifs ([x] ++ ·)
      (modify fun b => { b with ifs := x :: b.ifs } : Move Unit) :=
    .modify fun _ => rfl
  have counted : Tracks Builder.ifs (ifNote ts ++ ·) (do
      modify fun b => { b with ifLevels := b.level :: b.ifLevels }
      if ts.length = 3 then modify fun b => { b with ifs := .thenOnly :: b.ifs }
      if ts.length = 5 then modify fun b => { b with ifs := .thenElse :: b.ifs } : Move Unit) := by
    refine Tracks.after (.modify fun _ => rfl) fun _ => ?_
    by_cases three : ts.length = 3
    · simp only [ifNote, three]
      exact (push .thenOnly).before fun _ => silent
    · by_cases five : ts.length = 5
      · simp only [ifNote, five]
        exact push .thenElse
      · simp only [ifNote, three, five]
        exact silent
  refine ifs_inner.flush.after fun _ => (ifs_inner.rewiring (.lift _)).after fun text => ?_
  refine (ifs_inner.newNode _ _ _).after fun node =>
    (ifs_inner.rewiring edition_rewiring).after fun ed => ?_
  exact ((ifs_inner.rewiring (addFirst_rewiring _)).after fun _ => counted).ite counted

theorem leaveIf_tracks (ts : List Tree) : Tracks Builder.ifs List.tail (leaveIf ts) := by
  rw [leaveIf_eq]
  refine (ifs_inner.rewiring (closeIf_rewiring ts)).after fun _ => popIf_tracks.before fun _ => ?_
  exact (popIfLevel_spares fun _ _ => rfl).after fun _ => ifs_inner.rewiring (.pure _)

theorem enterFor_spares (ts : List Tree) : Spares Builder.ifs (enterFor ts) := by
  refine ifs_inner.flush.after fun _ => (ifs_inner.rewiring (.lift _)).after fun condition => ?_
  refine (ifs_inner.rewiring edition_rewiring).after fun ed => ?_
  cases ed with
  | late => exact (ifs_inner.newNode _ _ _).after fun _ => .modify fun _ => rfl
  | early => exact (ifs_inner.newNode _ _ _).after fun _ => ifs_inner.rewiring (.pure _)

theorem leaveFor_spares (inner : Inner view)
    (blind : ∀ (b : Builder) (levels : List Int), view { b with forLevels := levels } = view b) :
    Spares view leaveFor := by
  rw [leaveFor_eq]
  refine (inner.rewiring edition_rewiring).after fun ed => Tracks.after ?_ fun _ => ?_
  · cases ed with
    | late => exact (popForLevel_spares blind).after fun _ => inner.rewiring (.pure _)
    | early => exact inner.rewiring (.pure _)
  · exact inner.rewiring (leaveLoop_rewiring ed)

end Move

def Hook.note (us : List Tree) : Hook → List Branches → List Branches
  | .enterIf, ifs => ifNote us ++ ifs
  | .leaveIf, ifs => ifs.tail
  | _, ifs => ifs

/-- A hook that is completed changes the notes in its own way. -/
theorem Hook.run_note (h : Hook) (ts : List Tree) : Tracks Builder.ifs (h.note ts) (h.run ts) := by
  cases h with
  | enterBlock =>
      rw [Hook.run, enterBlock_eq]
      exact Tracks.after (.modify fun _ => rfl) fun _ => ifs_inner.rewiring noteBlock_rewiring
  | leaveBlock => exact Tracks.after (.modify fun _ => rfl) fun _ => ifs_inner.flush
  | enterIf => exact enterIf_tracks ts
  | leaveIf => exact leaveIf_tracks ts
  | enterFor => exact enterFor_spares ts
  | leaveFor => exact leaveFor_spares ifs_inner fun _ _ => rfl
  | _ => exact Hook.run_spares ifs_inner _ (by decide) ts

/-- What an event does to a stack with entries for the if statements that are open. -/
def Event.onIf {α : Type} (push : List Tree → List α) : Event → List α → List α
  | .enter h us, stack => if h.category = .ifStmt then push us ++ stack else stack
  | .leave h _, stack => if h.category = .ifStmt then stack.tail else stack
  | .leaf _, stack => stack

/-- The entries after some events, the innermost first. -/
def ifStack {α : Type} (push : List Tree → List α) (es : List Event) : List α :=
  es.foldl (fun stack e => e.onIf push stack) []

/-- The if statements that have been entered and not left, the innermost first. -/
def openIfs (es : List Event) : List (List Tree) := ifStack (fun us => [us]) es

section

variable {α β : Type} {e : Event} {es : List Event} {b c : Builder}

theorem ifStack_concat (push : List Tree → List α) (es : List Event) (e : Event) :
    ifStack push (es ++ [e]) = e.onIf push (ifStack push es) := by
  rw [ifStack, List.foldl_append]
  rfl

theorem ifStack_map (push : List Tree → List α) (g : α → β) (es : List Event) :
    (ifStack push es).map g = ifStack (fun us => (push us).map g) es := by
  induction es using List.reverseRecOn with
  | nil => rfl
  | append_singleton es e ih =>
      rw [ifStack_concat, ifStack_concat, ← ih]
      cases e with
      | enter h us =>
          simp only [Event.onIf]
          split
          · exact List.map_append
          · rfl
      | leave h us =>
          simp only [Event.onIf]
          split
          · exact List.map_tail
          · rfl
      | leaf l => rfl

theorem note_onEnter (c : Category) (us : List Tree) (ifs : List Branches) :
    (Hook.onEnter? c).elim ifs (fun k => k.note us ifs) = if c = .ifStmt then ifNote us ++
      ifs else ifs := by
  cases c <;> rfl

theorem note_onLeave (c : Category) (us : List Tree) (ifs : List Branches) :
    (Hook.onLeave? c).elim ifs (fun k => k.note us ifs) = if c =
      .ifStmt then ifs.tail else ifs := by
  cases c <;> rfl

theorem passes_note (passes : Passes [e] b c) : c.ifs = e.onIf ifNote b.ifs := by
  cases e with
  | enter h us =>
      rw [Event.onIf, ← note_onEnter]
      cases hook : Hook.onEnter? h.category with
      | none =>
          cases (passes_enter hook).mp passes
          rfl
      | some k =>
          rw [Passes, heed_enter hook, heed, bind_pure_unit] at passes
          exact k.run_note us b c () passes
  | leave h us =>
      rw [Event.onIf, ← note_onLeave h.category us]
      cases hook : Hook.onLeave? h.category with
      | none =>
          cases (passes_leave hook).mp passes
          rfl
      | some k =>
          rw [Passes, heed_leave hook, heed, bind_pure_unit] at passes
          exact k.run_note us b c () passes
  | leaf l =>
      cases passes
      rfl

theorem ifLevels_onEnter (c : Category) (d : Depths) (n : Nat) :
    ((Hook.onEnter? c).elim d (d.after n)).ifLevels =
      if c = .ifStmt then d.level :: d.ifLevels else d.ifLevels := by
  cases c <;> rfl

theorem ifLevels_onLeave (c : Category) (d : Depths) (n : Nat) :
    ((Hook.onLeave? c).elim d (d.after n)).ifLevels =
      if c = .ifStmt then d.ifLevels.tail else d.ifLevels := by
  cases c <;> rfl

theorem passes_ifLevels (late : b.edition = .late) (passes : Passes [e] b c)
    {stack : List (List Tree)} (same : b.ifLevels.length = stack.length) :
    c.edition = .late ∧ c.ifLevels.length = (e.onIf (fun us => [us]) stack).length := by
  cases e with
  | enter h us =>
      obtain ⟨late', depths⟩ := enter_depths late passes
      have levels :
          c.ifLevels = if h.category = .ifStmt then b.level :: b.ifLevels else b.ifLevels :=
        (congrArg Depths.ifLevels depths).trans (ifLevels_onEnter _ _ _)
      refine ⟨late', ?_⟩
      rw [levels, Event.onIf]
      split
      · exact congrArg (· + 1) same
      · exact same
  | leave h us =>
      obtain ⟨late', depths⟩ := leave_depths late passes
      have levels : c.ifLevels = if h.category = .ifStmt then b.ifLevels.tail else b.ifLevels :=
        (congrArg Depths.ifLevels depths).trans (ifLevels_onLeave _ _ _)
      refine ⟨late', ?_⟩
      rw [levels, Event.onIf]
      split
      · rw [List.length_tail, List.length_tail, same]
      · exact same
  | leaf l =>
      cases passes
      exact ⟨late, same⟩

end

/-- The builder has become `b` by the events with which the walk through the tree begins. -/
structure Tree.Passed (t : Tree) (es : List Event) (b : Builder) : Prop where
  begins : es <+: t.walk
  passes : Passes es (Builder.new .late) b

namespace Tree.Passed

variable {t : Tree} {es : List Event} {e : Event} {b : Builder}

theorem last (passed : t.Passed (es ++ [e]) b) : ∃ c, t.Passed es c ∧ Passes [e] c b := by
  obtain ⟨c, first, step⟩ := passes_append.mp passed.passes
  exact ⟨c, ⟨(List.prefix_append es [e]).trans passed.begins, first⟩, step⟩

theorem counts (passed : t.Passed es b) :
    b.edition = .late ∧ b.ifs = ifStack ifNote es ∧ b.ifLevels.length = (openIfs es).length := by
  induction es using List.reverseRecOn generalizing b with
  | nil =>
      cases passed.passes
      exact ⟨rfl, rfl, rfl⟩
  | append_singleton es e ih =>
      obtain ⟨c, before, step⟩ := passed.last
      obtain ⟨late, ifs, levels⟩ := ih before
      obtain ⟨late', levels'⟩ := passes_ifLevels late step levels
      refine ⟨late', ?_, ?_⟩
      · rw [ifStack_concat, ← ifs]
        exact passes_note step
      · rw [openIfs, ifStack_concat]
        exact levels'

end Tree.Passed

/-- Two stacks agree all along a walk if and only if they get the same entries for each if statement
that is entered. -/
theorem ifStack_agree {α : Type} (t : Tree) (f g : List Tree → List α) :
    (∀ es b, t.Passed es b → ifStack f es = ifStack g es) ↔
      ∀ es h us b, t.Passed (es ++ [Event.enter h us]) b → h.category = .ifStmt → f us = g us := by
  constructor
  · intro agree es h us b passed own
    obtain ⟨c, before, _⟩ := passed.last
    have same := agree _ b passed
    rw [ifStack_concat, ifStack_concat, agree es c before, Event.onIf, Event.onIf, if_pos own,
      if_pos own] at same
    exact List.append_cancel_right same
  · intro entered es
    induction es using List.reverseRecOn with
    | nil => exact fun b passed => rfl
    | append_singleton es e ih =>
        intro b passed
        obtain ⟨c, before, _⟩ := passed.last
        rw [ifStack_concat, ifStack_concat, ih c before]
        cases e with
        | enter h us =>
            rw [Event.onIf, Event.onIf]
            split
            · rw [entered es h us b passed ‹_›]
            · rfl
        | leave h us => rfl
        | leaf l => rfl

/-- The note on an if statement is right where no terminator stands before the condition. -/
theorem ifNote_eq_iff {us : List Tree} (spelled : Category.ifStmt.Spells us) :
    ifNote us = [branchesOf us] ↔ PartName.among (.category .eos) us = false := by
  have forms := ifStmt_forms spelled
  simp only [List.mem_cons, List.not_mem_nil, or_false, Prod.mk.injEq] at forms
  rcases forms with ⟨n, mark, other⟩ | ⟨n, mark, other⟩ | ⟨n, mark, other⟩ | ⟨n, mark, other⟩ |
    ⟨n, mark, other⟩ | ⟨n, mark, other⟩ <;> simp [ifNote, branchesOf, n, mark, other]

theorem length_ifNote {us : List Tree} :
    (ifNote us).length = 1 ↔ us.length = 3 ∨ us.length = 5 := by
  unfold ifNote
  split
  · simp [*]
  · split
    · simp [*]
    · simp [*]

theorem map_unit_eq_iff {α β : Type} {xs : List α} {ys : List β} :
    xs.map (fun _ => ()) = ys.map (fun _ => ()) ↔ xs.length = ys.length := by
  rw [List.map_const', List.map_const']
  constructor
  · intro same
    simpa using congrArg List.length same
  · intro same
    rw [same]

/-- While a tree without errors is walked, the notes name the branches of the open if statements,
one for each, just as long as no terminator stands before the condition of one that is entered. They
are as many as the levels just as long as each that is entered has three or five children. -/
theorem ifs_right_iff (t : Tree) (grammatical : t.Grammatical) :
    ((∀ es b, t.Passed es b → b.ifs = (openIfs es).map branchesOf) ↔
      ∀ es h us b, t.Passed (es ++ [.enter h us]) b → h.category = .ifStmt →
        PartName.among (.category .eos) us = false) ∧
    ((∀ es b, t.Passed es b → b.ifs.length = b.ifLevels.length) ↔
      ∀ es h us b, t.Passed (es ++ [.enter h us]) b → h.category = .ifStmt → us.length = 3 ∨
      us.length = 5) := by
  constructor
  · have entries : (∀ es b, t.Passed es b → b.ifs = (openIfs es).map branchesOf) ↔
        ∀ es b, t.Passed es b → ifStack ifNote es = ifStack (fun us => [branchesOf us]) es := by
      refine forall₃_congr fun es b passed => ?_
      rw [passed.counts.2.1, openIfs, ifStack_map]
      rfl
    rw [entries, ifStack_agree]
    refine forall_congr' fun es => forall₄_congr fun h us b passed => forall_congr' fun own => ?_
    have entered : .enter h us ∈ t.walk := passed.begins.subset (by simp)
    exact ifNote_eq_iff (own ▸ (grammatical h us entered).2)
  · have entries : (∀ es b, t.Passed es b → b.ifs.length = b.ifLevels.length) ↔
        ∀ es b, t.Passed es b → ifStack (fun us => (ifNote us).map fun _ => ()) es = ifStack
        (fun _ => [()]) es := by
      refine forall₃_congr fun es b passed => ?_
      rw [passed.counts.2.1, passed.counts.2.2, ← map_unit_eq_iff, openIfs, ifStack_map,
        ifStack_map]
      rfl
    rw [entries, ifStack_agree]
    refine forall_congr' fun es => forall₄_congr fun h us b passed => forall_congr' fun own => ?_
    have sizes : (ifNote us).map (fun _ => ()) = [()].map (fun _ => ()) ↔ (ifNote us).length = 1 :=
      map_unit_eq_iff
    exact sizes.trans length_ifNote

/-- An if statement with a statement before its condition and no else: `if x; (c) { }`. -/
def guardedIf : Tree :=
  .of .ifStmt [.sign .kwIf "if", .of .simpleStmt [.of .expressionStmt [.nameExpr "x"]],
  .of .eos [.sign .eos ";"],
  .of .expression
  [.of .primaryExpr [.of .operand [.sign .lParen "(", .nameExpr "c", .sign .rParen ")"]]],
  .of .block [.sign .lCurly "\x7b", .sign .rCurly "\x7d"]]

theorem guardedIf_grammatical : guardedIf.Grammatical := by
  have guard : (Tree.of .simpleStmt [.of .expressionStmt [.nameExpr "x"]]).Grammatical := by
    refine Tree.grammatical_single (.inr (.inr (.inr (.inl ⟨_, _, rfl, rfl⟩)))) ?_
    exact Tree.grammatical_single (.inl ⟨_, _, rfl, rfl⟩) (Tree.grammatical_nameExpr "x")
  have mark : (Tree.of .eos [.sign .eos ";"]).Grammatical :=
    Tree.grammatical_single (.inr (.inr (.inl ⟨_, rfl, rfl⟩))) (Tree.grammatical_sign _ _)
  have operand :
      (Tree.of .operand [.sign .lParen "(", .nameExpr "c", .sign .rParen ")"]).Grammatical := by
    refine Tree.grammatical_of
      (.inr (.inr (.inl ⟨[_], _, rfl, ⟨_, rfl, rfl⟩, [_], _, rfl, ⟨_, _, rfl, rfl⟩, [_], [],
      rfl, ⟨_, rfl, rfl⟩, rfl⟩))) ?_
    simp [Tree.grammatical_nameExpr, Tree.grammatical_sign]
  have condition : (Tree.of .expression [.of .primaryExpr [.of .operand
      [.sign .lParen "(", .nameExpr "c", .sign .rParen ")"]]]).Grammatical := by
    refine Tree.grammatical_single (.inl (.inl ⟨_, _, rfl, rfl⟩)) ?_
    exact Tree.grammatical_single (.inl (.inl ⟨_, _, rfl, rfl⟩)) operand
  have block : (Tree.of .block [.sign .lCurly "\x7b", .sign .rCurly "\x7d"]).Grammatical := by
    refine Tree.grammatical_of
      (.inl ⟨[_], _, rfl, ⟨_, rfl, rfl⟩, [], _, rfl, .inl rfl, [_], [], rfl, ⟨_, rfl, rfl⟩, rfl⟩) ?_
    simp [Tree.grammatical_sign]
  refine Tree.grammatical_of
    (.inl ⟨[_], _, rfl, ⟨_, rfl, rfl⟩, [_, _, _], _, rfl, .inr (.inr (.inl ⟨[_], _, rfl,
    ⟨_, _, rfl, rfl⟩, [_], _, rfl, ⟨_, _, rfl, rfl⟩, [_], [], rfl, ⟨_, _, rfl, rfl⟩, rfl⟩)),
    [_], [], rfl, ⟨_, _, rfl, rfl⟩, [], [], rfl, .inl rfl, rfl⟩) ?_
  simp [Tree.grammatical_sign, guard, mark, condition, block]

theorem guardedIf_misjudged : guardedIf.Grammatical ∧
    ¬ ∀ es b, guardedIf.Passed es b → b.ifs = (openIfs es).map branchesOf := by
  refine ⟨guardedIf_grammatical, fun right => ?_⟩
  have entered : guardedIf.Passed ([] ++ [.enter ⟨.ifStmt, none, []⟩ guardedIf.children])
      (built [.enter ⟨.ifStmt, none, []⟩ guardedIf.children]) := ⟨⟨_, rfl⟩, passes_built rfl⟩
  have alone := (ifs_right_iff guardedIf guardedIf_grammatical).1.mp right _ _ _ _ entered rfl
  exact absurd alone (by decide)

end GoFlow
