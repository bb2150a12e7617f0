import GoFlow.Proofs.Lines
import GoFlow.Proofs.OpenIfs
import GoFlow.Proofs.Settling

/-! The nodes that are open at a point of a walk, and what a builder of the late edition notes of
them. A walk enters and leaves the nodes of a tree as brackets open and close, whatever the tree.
The builder keeps a level and a stack for each kind of statement in its place: they say how many
blocks are open, how many were when each open if statement was entered, and which nodes were made
for the open loops. -/

namespace GoFlow

open Move Builder

open Dot (Statement)

/-- A node that has been entered, and the events before that. -/
structure Opening where
  before : List Event
  head : Head
  children : List Tree

namespace Opening

def events (o : Opening) : List Event := o.before ++ [.enter o.head o.children]

def isOf (c : Category) (o : Opening) : Bool := o.head.category = c

end Opening

/-- The nodes that are open after an event. What is left is the innermost of them. -/
def Event.opened (before : List Event) : Event → List Opening → List Opening
  | .enter h us, stack => ⟨before, h, us⟩ :: stack
  | .leave _ _, stack => stack.tail
  | .leaf _, stack => stack

def openingsFrom (before : List Event) (stack : List Opening) : List Event → List Opening
  | [] => stack
  | e :: es => openingsFrom (before ++ [e]) (e.opened before stack) es

/-- The nodes that have been entered and not left, the innermost first. -/
def openings (es : List Event) : List Opening := openingsFrom [] [] es

def openOf (c : Category) (es : List Event) : List Opening := (openings es).filter (Opening.isOf c)

def blocksOpen (es : List Event) : Nat := (openOf .block es).length

section Openings

variable {before es fs : List Event} {stack : List Opening}

theorem openingsFrom_append : openingsFrom before stack (es ++ fs) =
    openingsFrom (before ++ es) (openingsFrom before stack es) fs := by
  induction es generalizing before stack with
  | nil => rw [List.append_nil]; rfl
  | cons e es ih => rw [List.cons_append, openingsFrom, ih, List.append_assoc]; rfl

theorem openings_concat (es : List Event) (e : Event) :
    openings (es ++ [e]) = e.opened es (openings es) :=
  openingsFrom_append

mutual

/-- A tree that has been walked through leaves nothing open. -/
theorem Tree.openingsFrom_walk (t : Tree) (before : List Event) (stack : List Opening) :
    openingsFrom before stack t.walk = stack := by
  cases t with
  | leaf l => rfl
  | node h ts =>
      rw [Tree.walk, openingsFrom, openingsFrom_append, Tree.openingsFrom_walkAll ts]
      rfl

theorem Tree.openingsFrom_walkAll (ts : List Tree) (before : List Event) (stack : List Opening) :
    openingsFrom before stack (Tree.walkAll ts) = stack := by
  cases ts with
  | nil => rfl
  | cons t ts =>
      rw [Tree.walkAll, openingsFrom_append, Tree.openingsFrom_walk t, Tree.openingsFrom_walkAll ts]

end

mutual

/-- What is left in a walk is the node that was entered last of those that are open. -/
theorem Tree.innermost_left (t : Tree) {es after : List Event} {h : Head} {us : List Tree}
    (split : t.walk = es ++ .leave h us :: after) (before : List Event) (stack : List Opening) :
    ∃ o rest, openingsFrom before stack es = o :: rest ∧ o.head = h ∧ o.children = us := by
  cases t with
  | leaf l => cases es <;> simp [Tree.walk] at split
  | node k ts =>
      rw [Tree.walk] at split
      cases es with
      | nil => cases split
      | cons e es =>
          obtain ⟨rfl, children⟩ := List.cons.inj split
          rcases split_append children with ⟨rest, inside⟩ | ⟨later, rfl, last⟩
          · exact Tree.innermost_left_all ts inside _ _
          · cases later with
            | cons _ later => cases later <;> cases last
            | nil =>
                -- the root itself is left, and its children have left nothing open
                cases last
                rw [List.append_nil, openingsFrom, Tree.openingsFrom_walkAll]
                exact ⟨_, _, rfl, rfl, rfl⟩

theorem Tree.innermost_left_all (ts : List Tree) {es after : List Event} {h : Head}
    {us : List Tree} (split : Tree.walkAll ts = es ++ .leave h us :: after) (before : List Event)
    (stack : List Opening) :
    ∃ o rest, openingsFrom before stack es = o :: rest ∧ o.head = h ∧ o.children = us := by
  cases ts with
  | nil => cases es <;> cases split
  | cons t ts =>
      rw [Tree.walkAll] at split
      rcases split_append split with ⟨rest, inside⟩ | ⟨later, rfl, inside⟩
      · exact Tree.innermost_left t inside before stack
      · rw [openingsFrom_append]
        exact Tree.innermost_left_all ts inside _ _

end

end Openings

namespace Move

theorem breaks_inner : Inner Builder.breaks := ⟨fun _ => rfl, fun _ => rfl, fun _ _ => rfl⟩

theorem popIf_spares_breaks : Spares Builder.breaks popIf := by
  intro b c x done
  rw [perform_popIf] at done
  cases ifs : b.ifs with
  | nil => rw [ifs] at done; cases done
  | cons x xs =>
      rw [ifs] at done
      cases done
      rfl

theorem enterIf_spares_breaks (ts : List Tree) : Spares Builder.breaks (enterIf ts) := by
  have silent : Spares Builder.breaks (pure () : Move Unit) := breaks_inner.rewiring (.pure _)
  have push (x : Branches) : Spares Builder.breaks
      (modify fun b => { b with ifs := x :: b.ifs } : Move Unit) :=
    .modify fun _ => rfl
  have counted : Spares Builder.breaks (do
      modify fun b => { b with ifLevels := b.level :: b.ifLevels }
      if ts.length = 3 then modify fun b => { b with ifs := .thenOnly :: b.ifs }
      if ts.length = 5 then modify fun b => { b with ifs := .thenElse :: b.ifs } : Move Unit) := by
    refine Tracks.after (.modify fun _ => rfl) fun _ => ?_
    exact ((push .thenOnly).after fun _ => (push .thenElse).ite silent).ite
      ((push .thenElse).ite silent)
  refine breaks_inner.flush.after fun _ => (breaks_inner.rewiring (.lift _)).after fun text => ?_
  refine (breaks_inner.newNode _ _ _).after fun node =>
    (breaks_inner.rewiring edition_rewiring).after fun ed => ?_
  exact ((breaks_inner.rewiring (addFirst_rewiring _)).after fun _ => counted).ite counted

theorem leaveIf_spares_breaks (ts : List Tree) : Spares Builder.breaks (leaveIf ts) := by
  rw [leaveIf_eq]
  refine (breaks_inner.rewiring (closeIf_rewiring ts)).after fun _ =>
    popIf_spares_breaks.after fun _ => ?_
  exact (popIfLevel_spares fun _ _ => rfl).after fun _ => breaks_inner.rewiring (.pure _)

theorem loopNode_made {b c : Builder} {text name : String} (late : b.edition = .late)
    (made : b.perform (newNode "l" ("for " ++ text) "egg") = (.ok name, c)) :
    c.count = b.count + 1 ∧ c.breaks = b.breaks ∧ ∃ edges,
      c.graph = b.graph ++ .node ("l" ++ toString (b.count + 1))
      ("for " ++ text) "egg" :: edges := by
  obtain ⟨k, rfl, rfl, _, edges, graph, _⟩ := newNode_declares made
  obtain ⟨_, _, _, _, _, _, _, _, _, _, rfl⟩ := newNode_settles (by decide) made
  have label : nodeLabel b.edition b.held ("for " ++ text) "l" ("l" ++ toString (b.count + 1)) =
      "for " ++ text := by
    have written : ("for " ++ text).isEmpty = false := by simp
    simp [nodeLabel, late, written]
  refine ⟨rfl, rfl, edges, graph.trans ?_⟩
  rw [label, declared, List.append_assoc]
  rfl

/-- What the late edition makes of a loop that it enters: a node with the condition, and a list of
breaks. -/
theorem enterFor_makes {ts : List Tree} {b c : Builder} {u : Unit} (late : b.edition = .late)
    (done : b.perform (enterFor ts) = (.ok u, c)) :
    c.breaks = b.breaks ++ [[]] ∧ ∃ text added, childText ts 1 = .ok text ∧
      c.graph = b.graph ++ added ∧
      .node ("l" ++ toString c.count) ("for " ++ text) "egg" ∈ added := by
  obtain ⟨_, d, flushed, done⟩ := of_perform_bind done
  obtain ⟨edition, added, flushes, _⟩ := flush_steady b _ d flushed
  have breaks : d.breaks = b.breaks := breaks_inner.flush b d _ flushed
  obtain ⟨text, e, asked, done⟩ := of_perform_bind done
  rw [perform_lift] at asked
  obtain ⟨found, rfl⟩ := Prod.mk.inj asked
  rw [perform_bind_ok (perform_edition d), edition, late] at done
  obtain ⟨name, e, made, done⟩ := of_perform_bind done
  cases done
  obtain ⟨count, breaks', edges, graph⟩ := loopNode_made (edition.trans late) made
  rw [flushes, List.append_assoc] at graph
  dsimp only
  exact ⟨by rw [breaks', breaks], text, _, found, graph, by simp [count]⟩

end Move

def entries (c : Category) (es : List Event) : Nat := (es.filterMap Event.entered?).count c

/-- A hook of the late edition adds to the breaks only where a loop is entered. -/
theorem Hook.run_breaks (k : Hook) (ts : List Tree) {b c : Builder} {u : Unit}
    (late : b.edition = .late) (done : b.perform (k.run ts) = (.ok u, c)) :
    c.breaks = if k = .enterFor then b.breaks ++ [[]] else b.breaks := by
  by_cases loop : k = .enterFor
  · subst loop
    exact (enterFor_makes late done).1
  · rw [if_neg loop]
    have spared : Spares Builder.breaks (k.run ts) := by
      cases k with
      | enterBlock =>
          rw [Hook.run, enterBlock_eq]
          exact Tracks.after (.modify fun _ => rfl) fun _ =>
            breaks_inner.rewiring noteBlock_rewiring
      | leaveBlock => exact Tracks.after (.modify fun _ => rfl) fun _ => breaks_inner.flush
      | enterIf => exact enterIf_spares_breaks ts
      | leaveIf => exact leaveIf_spares_breaks ts
      | enterFor => exact absurd rfl loop
      | leaveFor => exact leaveFor_spares breaks_inner fun _ _ => rfl
      | _ => exact Hook.run_spares breaks_inner _ (by decide) ts
    exact spared b c u done

section

variable {b c : Builder} {e : Event} {es : List Event} {t : Tree} {h : Head} {us : List Tree}

theorem onEnter_enterFor (c : Category) : Hook.onEnter? c = some .enterFor ↔ c = .forStmt := by
  cases c <;> decide

theorem onLeave_ne_enterFor (c : Category) : Hook.onLeave? c ≠ some .enterFor := by
  cases c <;> decide

theorem passes_breaks (late : b.edition = .late) (passes : Passes [e] b c) :
    c.breaks = b.breaks ++ List.replicate (entries .forStmt [e]) [] := by
  cases e with
  | enter h us =>
      have counted : entries .forStmt [.enter h us] = if h.category = .forStmt then 1 else 0 := by
        simp [entries, Event.entered?, List.count_singleton]
      rw [counted]
      cases hook : Hook.onEnter? h.category with
      | none =>
          have other : h.category ≠ .forStmt := fun same => by rw [same] at hook; cases hook
          cases (passes_enter hook).mp passes
          rw [if_neg other, List.replicate_zero, List.append_nil]
      | some k =>
          rw [Passes, heed_enter hook, heed, bind_pure_unit] at passes
          rw [k.run_breaks us late passes]
          have same : k = .enterFor ↔ h.category = .forStmt := by
            rw [← onEnter_enterFor, hook, Option.some.injEq]
          simp only [same]
          split <;> simp
  | leave h us =>
      have none : entries .forStmt [.leave h us] = 0 := rfl
      rw [none, List.replicate_zero, List.append_nil]
      cases hook : Hook.onLeave? h.category with
      | none =>
          cases (passes_leave hook).mp passes
          rfl
      | some k =>
          rw [Passes, heed_leave hook, heed, bind_pure_unit] at passes
          rw [k.run_breaks us late passes, if_neg]
          rintro rfl
          exact onLeave_ne_enterFor _ hook
  | leaf l =>
      cases passes
      exact (List.append_nil _).symm

theorem openOf_enter (c : Category) (es : List Event) (h : Head) (us : List Tree) :
    openOf c (es ++ [Event.enter h us]) =
      if h.category = c then ⟨es, h, us⟩ :: openOf c es else openOf c es := by
  rw [openOf, openings_concat, Event.opened, List.filter_cons]
  simp only [Opening.isOf, decide_eq_true_eq]
  rfl

theorem openOf_leave (begins : es ++ [Event.leave h us] <+: t.walk) :
    ∃ o : Opening, o.head = h ∧ o.children = us ∧ ∀ c, openOf c es =
      if h.category = c then o :: openOf c (es ++ [Event.leave h us]) else openOf c
      (es ++ [Event.leave h us]) := by
  obtain ⟨after, split⟩ := begins
  obtain ⟨o, rest, top, rfl, rfl⟩ :=
    t.innermost_left (by rw [← split, List.append_assoc]; rfl) [] []
  refine ⟨o, rfl, rfl, fun c => ?_⟩
  rw [openOf, openOf, openings_concat, openings, top, Event.opened, List.tail_cons,
    List.filter_cons]
  simp only [Opening.isOf, decide_eq_true_eq]

theorem openOf_leaf (c : Category) (es : List Event) (l : Leaf) :
    openOf c (es ++ [Event.leaf l]) = openOf c es := by
  rw [openOf, openings_concat]
  rfl

theorem noted_enter {c : Category} {f : Opening → Int} {old new : List Int} {n : Int}
    (noted : old = (openOf c es).map f) (entry : n = f ⟨es, h, us⟩)
    (pushed : new = if h.category = c then n :: old else old) :
    new = (openOf c (es ++ [Event.enter h us])).map f := by
  rw [pushed, openOf_enter]
  split
  · rw [List.map_cons, noted, entry]
  · exact noted

theorem noted_leave {c : Category} {f : Opening → Int} {old new : List Int}
    (begins : es ++ [Event.leave h us] <+: t.walk) (noted : old = (openOf c es).map f)
    (popped : new = if h.category = c then old.tail else old) :
    new = (openOf c (es ++ [Event.leave h us])).map f := by
  obtain ⟨o, _, _, opened⟩ := openOf_leave begins
  rw [opened] at noted
  rw [popped]
  split
  · rename_i own
    rw [if_pos own] at noted
    exact congrArg List.tail noted
  · rename_i other
    rwa [if_neg other] at noted

theorem level_onEnter (c : Category) (d : Depths) (n : Nat) :
    ((Hook.onEnter? c).elim d (d.after n)).level = if c = .block then d.level + 1 else d.level := by
  cases c <;> rfl

theorem level_onLeave (c : Category) (d : Depths) (n : Nat) :
    ((Hook.onLeave? c).elim d (d.after n)).level = if c = .block then d.level - 1 else d.level := by
  cases c <;> rfl

theorem forLevels_onEnter (c : Category) (d : Depths) (n : Nat) :
    ((Hook.onEnter? c).elim d (d.after n)).forLevels =
      if c = .forStmt then (n : Int) :: d.forLevels else d.forLevels := by
  cases c <;> rfl

theorem forLevels_onLeave (c : Category) (d : Depths) (n : Nat) :
    ((Hook.onLeave? c).elim d (d.after n)).forLevels =
      if c = .forStmt then d.forLevels.tail else d.forLevels := by
  cases c <;> rfl

end

namespace Opening

def number (o : Opening) : Nat := (built o.events).count

/-- When the loop was entered, a node with this number was made for it, which shows the
condition. -/
def Looped (o : Opening) : Prop :=
  ∃ text added, childText o.children 1 = .ok text ∧
    (built o.events).graph = (built o.before).graph ++ added ∧
    .node ("l" ++ toString o.number) ("for " ++ text) "egg" ∈ added

end Opening

/-- The notes of the builder tell what is open after the events. Its stacks and the open nodes are
both listed from the innermost. -/
structure Builder.Tallies (b : Builder) (es : List Event) : Prop where
  level : b.level = blocksOpen es
  ifLevels : b.ifLevels = (openOf .ifStmt es).map fun o => (blocksOpen o.before : Int)
  forLevels : b.forLevels = (openOf .forStmt es).map fun o => (o.number : Int)
  loops : ∀ o ∈ openOf .forStmt es, o.Looped
  breaks : b.breaks = List.replicate (entries .forStmt es) []

namespace Builder.Tallies

variable {b c : Builder} {e : Event} {es : List Event} {t : Tree} {h : Head} {us : List Tree}

theorem nextBreaks (tallies : b.Tallies es) (late : b.edition = .late) (step : Passes [e] b c) :
    c.breaks = List.replicate (entries .forStmt (es ++ [e])) [] := by
  rw [passes_breaks late step, tallies.breaks, ← List.replicate_add, entries, entries, entries,
    List.filterMap_append, List.count_append]

theorem enter (tallies : b.Tallies es) (before : t.Passed es b)
    (passed : t.Passed (es ++ [Event.enter h us]) c) (step : Passes [.enter h us] b c) :
    c.Tallies (es ++ [Event.enter h us]) := by
  have late := before.counts.1
  obtain ⟨_, depths⟩ := enter_depths late step
  have level : c.level = _ := (congrArg Depths.level depths).trans (level_onEnter _ _ _)
  have ifLevels : c.ifLevels = _ := (congrArg Depths.ifLevels depths).trans (ifLevels_onEnter _ _ _)
  have forLevels : c.forLevels = _ :=
    (congrArg Depths.forLevels depths).trans (forLevels_onEnter _ _ _)
  refine ⟨?_, ?_, ?_, ?_, tallies.nextBreaks late step⟩
  · rw [level, blocksOpen, openOf_enter]
    split
    · rw [List.length_cons, Int.natCast_succ]
      exact congrArg (· + 1) tallies.level
    · exact tallies.level
  · exact noted_enter tallies.ifLevels tallies.level ifLevels
  · refine noted_enter tallies.forLevels ?_ forLevels
    rw [Opening.number, Opening.events, passed.passes.built]
  · rw [openOf_enter]
    split
    · rename_i loop
      refine List.forall_mem_cons.mpr ⟨?_, tallies.loops⟩
      have hook : Hook.onEnter? h.category = some .enterFor := (onEnter_enterFor _).mpr loop
      rw [Passes, heed_enter hook, heed, bind_pure_unit] at step
      obtain ⟨_, text, added, found, graph, made⟩ := enterFor_makes late step
      rw [Opening.Looped, Opening.number, Opening.events, passed.passes.built, before.passes.built]
      exact ⟨text, added, found, graph, made⟩
    · exact tallies.loops

theorem leave (tallies : b.Tallies es) (before : t.Passed es b)
    (passed : t.Passed (es ++ [Event.leave h us]) c) (step : Passes [.leave h us] b c) :
    c.Tallies (es ++ [Event.leave h us]) := by
  have late := before.counts.1
  obtain ⟨_, depths⟩ := leave_depths late step
  have level : c.level = _ := (congrArg Depths.level depths).trans (level_onLeave _ _ _)
  have ifLevels : c.ifLevels = _ := (congrArg Depths.ifLevels depths).trans (ifLevels_onLeave _ _ _)
  have forLevels : c.forLevels = _ :=
    (congrArg Depths.forLevels depths).trans (forLevels_onLeave _ _ _)
  obtain ⟨o, _, _, opened⟩ := openOf_leave passed.begins
  refine ⟨?_, ?_, ?_, ?_, tallies.nextBreaks late step⟩
  · have before : b.level = (openOf .block es).length := tallies.level
    rw [opened] at before
    rw [level, blocksOpen]
    split
    · rename_i block
      rw [if_pos block, List.length_cons] at before
      exact Int.sub_eq_iff_eq_add.mpr before
    · rename_i other
      rwa [if_neg other] at before
  · exact noted_leave passed.begins tallies.ifLevels ifLevels
  · exact noted_leave passed.begins tallies.forLevels forLevels
  · intro p member
    refine tallies.loops p ?_
    rw [opened]
    split
    · exact List.mem_cons_of_mem _ member
    · exact member

theorem leaf {l : Leaf} (tallies : b.Tallies es) : b.Tallies (es ++ [Event.leaf l]) := by
  have same (c : Category) : openOf c (es ++ [Event.leaf l]) = openOf c es := openOf_leaf c es l
  refine ⟨?_, ?_, ?_, ?_, ?_⟩
  · rw [blocksOpen, same]
    exact tallies.level
  · rw [same]
    exact tallies.ifLevels
  · rw [same]
    exact tallies.forLevels
  · rw [same]
    exact tallies.loops
  · rw [tallies.breaks, entries, entries, List.filterMap_append, List.count_append]
    rfl

end Builder.Tallies

theorem Tree.Passed.tallies {t : Tree} {es : List Event} {b : Builder} (passed : t.Passed es b) :
    b.Tallies es := by
  -- on the events from the last one back: what it opens or closes depends on all before it
  induction es using List.reverseRecOn generalizing b with
  | nil =>
      cases passed.passes
      exact ⟨rfl, rfl, rfl, List.forall_mem_nil _, rfl⟩
  | append_singleton es e ih =>
      obtain ⟨c, before, step⟩ := passed.last
      cases e with
      | enter h us => exact (ih before).enter before passed step
      | leave h us => exact (ih before).leave before passed step
      | leaf l =>
          cases step
          exact (ih before).leaf

theorem turns_passes {es : List Event} {b : Builder} {i : Nat} {x : Turn}
    (found : (b.turns es)[i]? = some x) :
    ∃ fs e us, fs ++ [e] <+: es ∧ Hook.ofEvent? e = some (x.hook, us) ∧
      (fs.filterMap Hook.ofEvent?).length = i ∧
      Passes (fs ++ [e]) b x.after := by
  induction es generalizing b i with
  | nil => cases found
  | cons e es ih =>
      rw [Builder.turns] at found
      cases hook : Hook.ofEvent? e with
      | none =>
          rw [hook] at found
          obtain ⟨fs, e', us, begins, own, count, passes⟩ := ih found
          refine ⟨e :: fs, e', us, List.cons_prefix_cons.mpr ⟨rfl, begins⟩, own, ?_, ?_⟩
          · rw [List.filterMap_cons_none hook, count]
          · rw [Passes, List.cons_append, heed, hook]
            exact passes
      | some p =>
          obtain ⟨k, us⟩ := p
          rw [hook] at found
          dsimp only at found
          rcases done : b.perform (k.run us) with ⟨m | u, next⟩
          · rw [done] at found
            cases found
          · rw [done] at found
            have first : Passes [e] b next := by
              simpa only [Passes, heed, hook, bind_pure_unit] using done
            cases i with
            | zero =>
                cases found
                exact ⟨[], e, us, List.prefix_append [e] es, hook, rfl, first⟩
            | succ i =>
                obtain ⟨fs, e', us', begins, own, count, passes⟩ := ih found
                refine ⟨e :: fs, e', us', List.cons_prefix_cons.mpr ⟨rfl, begins⟩, own, ?_, ?_⟩
                · rw [List.filterMap_cons_some hook, List.length_cons, count]
                · exact (show Passes ([e] ++ (fs ++ [e'])) b x.after from passes_append.mpr
                    ⟨next, first, passes⟩)

/-- After each hook that is completed the notes tell what is open, and a walk that is completed
leaves nothing open. -/
theorem open_nodes_tallied (t : Tree) :
    let followed := (Builder.new .late).follow t
    (∀ i k b, followed.trace[i]? = some (k, b) → ∃ es e us, es ++ [e] <+: t.walk ∧
    Hook.ofEvent? e = some (k, us) ∧
      (es.filterMap Hook.ofEvent?).length = i ∧ b.Tallies (es ++ [e])) ∧
    (followed.mishap = none → followed.builder.Tallies t.walk ∧
      followed.builder.level = 0 ∧ followed.builder.ifLevels = [] ∧
      followed.builder.forLevels = []) := by
  intro followed
  refine ⟨fun i k b found => ?_, fun done => ?_⟩
  · rw [show followed.trace = _ from go_trace _ _ _, List.getElem?_map] at found
    obtain ⟨x, turn, same⟩ := Option.map_eq_some_iff.mp found
    cases same
    obtain ⟨es, e, us, begins, own, count, passes⟩ := turns_passes turn
    exact ⟨es, e, us, begins, own, count, Tree.Passed.tallies ⟨begins, passes⟩⟩
  · have tallies : followed.builder.Tallies t.walk :=
      Tree.Passed.tallies ⟨List.prefix_rfl, passes_built done⟩
    have closed (c : Category) : openOf c t.walk = [] := by
      rw [openOf, openings, t.openingsFrom_walk]
      rfl
    refine ⟨tallies, ?_, ?_, ?_⟩
    · rw [tallies.level, blocksOpen, closed]
      rfl
    · rw [tallies.ifLevels, closed]
      rfl
    · rw [tallies.forLevels, closed]
      rfl

end GoFlow
