import GoFlow.Proofs.Simulation

/-! Drawing a source and walking a tree that shows it come to the same: the walk is completed just
if there is a drawing, and the builder then has its texts. -/

namespace GoFlow

open Move Builder Sketch

variable {d : Sketch} {b : Builder}

theorem perform_assignFrom (op : String) (names : List String) (type : Item) (values : List String)
    (i : Nat) (c : Builder) :
    (i + values.length ≤ names.length →
      c.perform (assignFrom "" op (.group (names.map .name)) type (values.map .name) i) =
        (.ok (), { c with held := c.held ++ assignmentLines op (names.drop i) values })) ∧
    (names.length < i + values.length → i ≤ names.length →
      ∃ e e', c.perform (assignFrom "" op (.group (names.map .name)) type (values.map .name) i) =
        (.error e, e')) := by
  induction values generalizing i c with
  | nil =>
      refine ⟨fun _ => ?_, fun short le => absurd short (Nat.not_lt.mpr le)⟩
      cases names.drop i <;> simp [assignFrom, assignmentLines]
  | cons v values ih =>
      rw [List.map_cons, assignFrom]
      have place : (Item.group (names.map .name)).unit i =
          names[i]?.elim (.error .outOfRange) fun n => .ok (.name n) := by
        rw [Item.unit, Item.units, List.getElem?_map]
        cases names[i]? <;> rfl
      cases here : names[i]? with
      | none =>
          have beyond := List.getElem?_eq_none_iff.mp here
          rw [place, here, Option.elim_none]
          refine ⟨fun fit => ?_, fun _ _ => ⟨_, _, perform_bind_error (perform_lift c _) _⟩⟩
          rw [List.length_cons] at fit
          omega
      | some n =>
          obtain ⟨bound, rfl⟩ := List.getElem?_eq_some_iff.mp here
          rw [place, here, Option.elim_some, perform_bind_ok (perform_lift c _),
            perform_bind_ok (perform_modify c _)]
          obtain ⟨fit, short⟩ := ih (i + 1)
            { c with held := c.held ++ assignLine "" op type (.name names[i]) (.name v) }
          refine ⟨fun h => ?_, fun h _ => short ?_ bound⟩
          · rw [fit (by rw [List.length_cons] at h; omega), List.drop_eq_getElem_cons bound,
              assignmentLines]
            simp [assignLine, Item.shown, String.append_assoc]
          · rw [List.length_cons] at h
            omega

/-- The numbers of names and of values stand in the relation, in every assignment. -/
def Event.Assigns (R : Nat → Nat → Prop) : Event → Prop
  | .enter h [left, _, right] =>
      h.category = .assignment → R left.itemTexts.length right.itemTexts.length
  | _ => True

instance (R : Nat → Nat → Prop) [∀ m n, Decidable (R m n)] (e : Event) :
    Decidable (e.Assigns R) := by
  unfold Event.Assigns
  split <;> infer_instance

theorem perform_enterAssignment (b : Builder) (left op right : Tree) :
    (right.itemTexts.length ≤ left.itemTexts.length →
      b.perform (Move.enterAssignment [left, op, right]) = (.ok (), { b with
        namesRead := false, valuesRead := false
        held := b.held ++ assignmentLines op.text left.itemTexts right.itemTexts })) ∧
    (left.itemTexts.length < right.itemTexts.length →
      ∃ e c, b.perform (Move.enterAssignment [left, op, right]) = (.error e, c)) := by
  have names : childItems [left, op, right] 0 = .ok (.group (left.itemTexts.map .name)) := by
    simp [childItems, child, Except.map, items, Tree.itemTexts]
  have text : childText [left, op, right] 1 = .ok op.text := rfl
  have values : childItems [left, op, right] 2 = .ok (.group (right.itemTexts.map .name)) := by
    simp [childItems, child, Except.map, items, Tree.itemTexts]
  have start : b.perform (Move.enterAssignment [left, op, right]) = b.perform (do
      assignFrom "" op.text (.group (left.itemTexts.map .name)) (.name "guess")
        (right.itemTexts.map .name) 0
      modify fun b => { b with namesRead := false, valuesRead := false }) := by
    unfold Move.enterAssignment
    simp only [names, text, values]
    rw [perform_bind_ok (perform_lift b _), perform_bind_ok (perform_lift b _),
      perform_bind_ok (perform_lift b _)]
    rfl
  obtain ⟨fit, short⟩ :=
    perform_assignFrom op.text left.itemTexts (.name "guess") right.itemTexts 0 b
  rw [start]
  refine ⟨fun h => ?_, fun h => ?_⟩
  · rw [perform_bind_ok (fit (by omega)), List.drop_zero]
    rfl
  · obtain ⟨e, c, stopped⟩ := short (by omega) (Nat.zero_le _)
    exact ⟨e, c, perform_bind_error stopped _⟩

theorem Sketch.Encodes.agrees_enterAssignment (h : d.Encodes b) {left op right : Tree}
    (fits : right.itemTexts.length ≤ left.itemTexts.length) :
    Agrees () (b.perform (Move.enterAssignment [left, op, right]))
      (some (d.hold (assignmentLines op.text left.itemTexts right.itemTexts))) :=
  ⟨_, (perform_enterAssignment b left op right).1 fits, { h with
    held := by rw [h.held]; rfl
    numbered := { h.numbered with } }⟩

theorem heed_enter {h : Head} {k : Hook} (hook : Hook.onEnter? h.category = some k) (us : List Tree)
    (es : List Event) : heed (.enter h us :: es) = (do k.run us; heed es) := by
  simp only [heed, Hook.ofEvent?, hook, Option.map_some]

theorem heed_leave {h : Head} {k : Hook} (hook : Hook.onLeave? h.category = some k) (us : List Tree)
    (es : List Event) : heed (.leave h us :: es) = (do k.run us; heed es) := by
  simp only [heed, Hook.ofEvent?, hook, Option.map_some]

theorem heed_enter_none {h : Head} (hook : Hook.onEnter? h.category = none) (us : List Tree)
    (es : List Event) : heed (.enter h us :: es) = heed es := by
  simp only [heed, Hook.ofEvent?, hook, Option.map_none]

theorem heed_leave_none {h : Head} (hook : Hook.onLeave? h.category = none) (us : List Tree)
    (es : List Event) : heed (.leave h us :: es) = heed es := by
  simp only [heed, Hook.ofEvent?, hook, Option.map_none]

theorem draw_prepend (line : String) (body : Body) (d : Sketch) :
    (body.prepend line).draw d = body.draw (d.hold line) := by
  cases body with
  | run text rest =>
      simp only [Body.prepend, Body.draw, Sketch.hold, String.append_assoc]
  | _ => rfl

theorem heed_plains {us : List Tree} (plain : ∀ t ∈ us, t.Plain) (phase : b.phase = .none)
    (es : List Event) : b.perform (heed (Tree.walkAll us ++ es)) = b.perform (heed es) := by
  induction us with
  | nil => rfl
  | cons t us ih =>
      rw [Tree.walkAll, List.append_assoc, heed_plain (plain t List.mem_cons_self) phase]
      exact ih fun u hu => plain u (List.mem_cons_of_mem t hu)

theorem walkAll_append (ts us : List Tree) :
    Tree.walkAll (ts ++ us) = Tree.walkAll ts ++ Tree.walkAll us := by
  induction ts with
  | nil => rfl
  | cons t ts ih => rw [List.cons_append, Tree.walkAll, Tree.walkAll, ih, List.append_assoc]

/-- A category around statements is neither entered nor left by the builder. -/
theorem heed_wrapper {h : Head} (wrapper : h.category ∈ Category.wrappers) (us ts : List Tree) :
    heed (Tree.walkAll (.node h us :: ts)) = heed (Tree.walkAll (us ++ ts)) := by
  have hooks : Hook.onEnter? h.category = none ∧ Hook.onLeave? h.category = none := by
    revert wrapper
    cases h.category <;> decide
  rw [Tree.walkAll, Tree.walk, List.cons_append, heed_enter_none hooks.1, List.append_assoc,
    heed_append, List.cons_append, heed_leave_none hooks.2, List.nil_append, walkAll_append,
    heed_append]

/-- A builder that has the texts of a sketch heeds the events as the sketch is drawn further. -/
def Draws (es : List Event) (draw : Sketch → Option Sketch) : Prop :=
  ∀ (d : Sketch) (b : Builder), d.Encodes b → Agrees () (b.perform (heed es)) (draw d)

namespace Draws

variable {es fs : List Event} {f g : Sketch → Option Sketch}

theorem nil : Draws [] some := fun _ b h => ⟨b, rfl, h⟩

theorem append (first : Draws es f) (next : Draws fs g) :
    Draws (es ++ fs) fun d => (f d).bind g := by
  intro d b h
  rw [heed_append]
  exact (first d b h).bind fun d' c _ => next d' c

theorem plains {us : List Tree} (plain : ∀ t ∈ us, t.Plain) (next : Draws es f) :
    Draws (Tree.walkAll us ++ es) f := by
  intro d b h
  rw [heed_plains plain h.phase]
  exact next d b h

theorem enter {h : Head} {k : Hook} {us : List Tree} (hook : Hook.onEnter? h.category = some k)
    (run : ∀ d b, Encodes d b → Agrees () (b.perform (k.run us)) (f d)) :
    Draws [.enter h us] f := by
  intro d b hb
  rw [heed_enter hook, heed, bind_pure_unit]
  exact run d b hb

theorem leave {h : Head} {k : Hook} {us : List Tree} (hook : Hook.onLeave? h.category = some k)
    (run : ∀ d b, Encodes d b → Agrees () (b.perform (k.run us)) (f d)) :
    Draws [.leave h us] f := by
  intro d b hb
  rw [heed_leave hook, heed, bind_pure_unit]
  exact run d b hb

theorem pass {h : Head} {us : List Tree} (hook : Hook.onLeave? h.category = none)
    (next : Draws es f) : Draws (.leave h us :: es) f := by
  intro d b hb
  rw [heed_leave_none hook]
  exact next d b hb

end Draws

/-- No assignment has more values than names. -/
def Fits (es : List Event) : Prop := ∀ e ∈ es, e.Assigns fun names values => values ≤ names

theorem Fits.append {es fs : List Event} : Fits (es ++ fs) ↔ Fits es ∧ Fits fs :=
  List.forall_mem_append

theorem Fits.cons {e : Event} {es : List Event} :
    Fits (e :: es) ↔ e.Assigns (fun names values => values ≤ names) ∧ Fits es :=
  List.forall_mem_cons

/-- The children of a statement after its keyword and its condition. -/
theorem draws_children {keyword condition : Tree} (plain : ∀ t ∈ [keyword, condition], t.Plain)
    {us : List Tree} {f : Sketch → Option Sketch} (inner : Draws (Tree.walkAll us) f) :
    Draws (Tree.walkAll (keyword :: condition :: us)) f := by
  rw [show keyword :: condition :: us = [keyword, condition] ++ us from rfl, walkAll_append]
  exact .plains plain inner

theorem draws_else {block marker other : Tree} {f g : Sketch → Option Sketch} (plain : marker.Plain)
    (first : Draws block.walk f) (second : Draws other.walk g) :
    Draws (Tree.walkAll [block, marker, other]) fun d => (f d).bind g := by
  have rest : Draws (marker.walk ++ other.walk) g := fun d b hb => by
    rw [heed_plain plain hb.phase]
    exact second d b hb
  simp only [Tree.walkAll, List.append_nil]
  exact first.append rest

namespace BranchParts

variable {us : List Tree} {condition : String} {yes : Body} {no : Otherwise} {h : Head}

theorem length (parts : BranchParts us condition yes no) :
    us.length = match no.branches with | .thenOnly => 3 | .thenElse => 5 := by
  cases parts <;> rfl

/-- Entering an if statement. -/
theorem enters (parts : BranchParts us condition yes no) (category : h.category = .ifStmt) :
    Draws [.enter h us] fun d => d.enterIf condition no.branches := by
  have entering : Hook.onEnter? h.category = some .enterIf := by rw [category]; rfl
  have length := parts.length
  cases parts <;> exact .enter entering fun d b hb => hb.agrees_enterIf rfl _ length

theorem leaves (parts : BranchParts us condition yes no) (category : h.category = .ifStmt) :
    Draws [.leave h us] fun d => d.leaveIf no.branches := by
  have leaving : Hook.onLeave? h.category = some .leaveIf := by rw [category]; rfl
  exact .leave leaving fun d b hb => hb.agrees_leaveIf no.branches parts.length

/-- An if statement whose children draw its branches. -/
theorem draws_around (parts : BranchParts us condition yes no) (category : h.category = .ifStmt)
    (inner : Draws (Tree.walkAll us) fun d => (yes.drawBlock d).bind no.draw) :
    Draws (Tree.node h us).walk (drawIf condition yes no) := by
  have same : drawIf condition yes no = fun d => (d.enterIf condition no.branches).bind
      fun d => ((yes.drawBlock d).bind no.draw).bind fun d => d.leaveIf no.branches := by
    funext d
    simp only [drawIf, Option.bind_assoc]
  rw [same]
  exact (parts.enters category).append (inner.append (parts.leaves category))

end BranchParts

section Loop

variable {h : Head} {keyword condition block : Tree}

/-- Entering a loop. -/
theorem enters_for (category : h.category = .forStmt) :
    Draws [.enter h [keyword, condition, block]] fun d => d.enterFor condition.text := by
  have entering : Hook.onEnter? h.category = some .enterFor := by rw [category]; rfl
  exact .enter entering fun d b hb =>
    hb.agrees_enterFor (show [keyword, condition, block][1]? = some condition from rfl)

theorem leaves_for (category : h.category = .forStmt) :
    Draws [.leave h [keyword, condition, block]] Sketch.leaveFor := by
  have leaving : Hook.onLeave? h.category = some .leaveFor := by rw [category]; rfl
  exact .leave leaving fun d b hb => hb.agrees_leaveFor

theorem draws_inside_for (plain : ∀ t ∈ [keyword, condition], t.Plain) {body : Body}
    (inner : Draws block.walk body.drawBlock) :
    Draws (Tree.walkAll [keyword, condition, block]) body.drawBlock := by
  refine draws_children plain ?_
  rw [Tree.walkAll, Tree.walkAll, List.append_nil]
  exact inner

theorem draws_for (category : h.category = .forStmt) (plain : ∀ t ∈ [keyword, condition], t.Plain)
    {body : Body} (inner : Draws block.walk body.drawBlock) :
    Draws (Tree.node h [keyword, condition, block]).walk (drawFor condition.text body) :=
  (enters_for category).append ((draws_inside_for plain inner).append (leaves_for category))

end Loop

theorem enters_block {h : Head} {us : List Tree} (category : h.category = .block) :
    Draws [.enter h us] enterBlock := by
  have entering : Hook.onEnter? h.category = some .enterBlock := by rw [category]; rfl
  exact .enter entering fun d b hb => hb.agrees_enterBlock

theorem leaves_block {h : Head} {us : List Tree} (category : h.category = .block) :
    Draws [.leave h us] leaveBlock := by
  have leaving : Hook.onLeave? h.category = some .leaveBlock := by rw [category]; rfl
  exact .leave leaving fun d b hb => hb.agrees_leaveBlock

/-- An assignment holds its lines back. -/
theorem draws_assignment {h : Head} {left op right : Tree} (category : h.category = .assignment)
    (plain : ∀ t ∈ [left, op, right], t.Plain) (fits : Fits (Tree.node h [left, op, right]).walk) :
    Draws (Tree.node h [left, op, right]).walk fun d =>
      some (d.hold (assignmentLines op.text left.itemTexts right.itemTexts)) := by
  have entering : Hook.onEnter? h.category = some .enterAssignment := by rw [category]; rfl
  have leaving : Hook.onLeave? h.category = none := by rw [category]; rfl
  have few := (Fits.cons.mp fits).1 category
  exact (Draws.enter entering fun d b hb => hb.agrees_enterAssignment few).append
    (Draws.plains plain (Draws.pass leaving Draws.nil))

theorem Fits.node {h : Head} {us : List Tree} (fits : Fits (Tree.node h us).walk) :
    Fits (Tree.walkAll us) :=
  (Fits.append.mp (Fits.cons.mp fits).2).1

mutual

theorem Statements.draws {ts : List Tree} {body : Body} (shown : Statements ts body)
    (fits : Fits (Tree.walkAll ts)) : Draws (Tree.walkAll ts) body.draw :=
  match shown with
  | .none => by
      intro d b h
      rw [Body.draw]
      exact ⟨b, rfl, h⟩
  | .plain plain rest => by
      intro d b h
      rw [Tree.walkAll, heed_plain plain h.phase]
      exact rest.draws (Fits.append.mp fits).2 d b h
  | .within wrapper inner => by
      intro d b h
      rw [heed_wrapper wrapper]
      rw [Tree.walkAll, Fits.append] at fits
      refine inner.draws ?_ d b h
      rw [walkAll_append, Fits.append]
      exact ⟨fits.1.node, fits.2⟩
  | .assignment category plain _ rest => by
      rw [Tree.walkAll, Fits.append] at fits
      rw [Tree.walkAll, funext (draw_prepend _ _)]
      exact (draws_assignment category plain fits.1).append (rest.draws fits.2)
  | .branch category parts after => by
      rw [Tree.walkAll, Fits.append] at fits
      rw [Tree.walkAll, funext (Body.draw_branch _ _ _ _)]
      exact (parts.draws_around category (parts.inside fits.1.node)).append (after.draws fits.2)
  | .loop category plain inside after => by
      rw [Tree.walkAll, Fits.append] at fits
      rw [Tree.walkAll, funext (Body.draw_loop _ _ _)]
      refine Draws.append (draws_for category plain (inside.draws ?_)) (after.draws fits.2)
      have inner := fits.1.node
      simp only [Tree.walkAll, Fits.append] at inner
      exact inner.2.2.1

theorem Block.draws {t : Tree} {body : Body} (shown : Block t body) (fits : Fits t.walk) :
    Draws t.walk body.drawBlock :=
  match shown with
  | .intro category statements => by
      rw [Tree.walk]
      exact (enters_block category).append
        ((statements.draws fits.node).append (leaves_block category))

theorem BranchParts.inside {us : List Tree} {condition : String} {yes : Body} {no : Otherwise}
    (shown : BranchParts us condition yes no) (fits : Fits (Tree.walkAll us)) :
    Draws (Tree.walkAll us) fun d => (yes.drawBlock d).bind no.draw :=
  match shown with
  | .bare plain first => by
      simp only [Tree.walkAll, Fits.append] at fits
      refine draws_children plain ?_
      simp only [Tree.walkAll, Otherwise.draw]
      exact (first.draws fits.2.2.1).append Draws.nil
  | .withElse plain first second => by
      simp only [Tree.walkAll, Fits.append] at fits
      refine draws_children (fun t ht => plain t (by grind)) ?_
      exact draws_else (plain _ (by simp)) (first.draws fits.2.2.1) (second.draws fits.2.2.2.2.1)
  | .withElseIf plain first category parts => by
      simp only [Tree.walkAll, Fits.append] at fits
      refine draws_children (fun t ht => plain t (by grind)) ?_
      rw [funext (Otherwise.draw_elseIf _ _ _)]
      exact draws_else (plain _ (by simp)) (first.draws fits.2.2.1)
        (parts.draws_around category (parts.inside fits.2.2.2.2.1.node))

end

section Function

variable {h : Head} {keyword name : Tree} {us : List Tree}

theorem enters_function (category : h.category = .functionDecl) :
    Draws [.enter h (keyword :: name :: us)] fun d => d.enterFunction name.text := by
  have entering : Hook.onEnter? h.category = some .enterFunction := by rw [category]; rfl
  exact .enter entering fun d b hb =>
    hb.agrees_enterFunction (show (keyword :: name :: us)[1]? = some name from rfl)

theorem leaves_function (category : h.category = .functionDecl) :
    Draws [.leave h (keyword :: name :: us)] fun d => d.leaveFunction name.text := by
  have leaving : Hook.onLeave? h.category = some .leaveFunction := by rw [category]; rfl
  exact .leave leaving fun d b hb =>
    hb.agrees_leaveFunction (show (keyword :: name :: us)[1]? = some name from rfl)

end Function

theorem Declares.draws {t : Tree} {f : Function} (shown : Declares t f) (fits : Fits t.walk) :
    Draws t.walk f.draw := by
  obtain @⟨h, keyword, name, block, us, body, category, plain, inside⟩ := shown
  have inner := fits.node
  simp only [walkAll_append, Tree.walkAll, Fits.append] at inner
  have children : Tree.walkAll (keyword :: name :: us ++ [block]) =
      Tree.walkAll (keyword :: name :: us) ++ block.walk := by
    simp only [walkAll_append, Tree.walkAll, List.append_nil]
  rw [Tree.walk, children, List.append_assoc]
  exact (enters_function category).append
    (Draws.plains plain ((inside.draws inner.2.1).append (leaves_function category)))

theorem Functions.draws {ts : List Tree} {fs : List Function} (shown : Functions ts fs)
    (fits : Fits (Tree.walkAll ts)) : Draws (Tree.walkAll ts) (drawAll fs) := by
  induction shown with
  | none => exact Draws.nil
  | plain plain rest ih =>
      intro d b h
      rw [Tree.walkAll, heed_plain plain h.phase]
      exact ih (Fits.append.mp fits).2 d b h
  | declares first rest ih =>
      rw [Tree.walkAll, Fits.append] at fits
      exact (first.draws fits.1).append (ih fits.2)

theorem Shows.draws {t : Tree} {fs : List Function} (shown : Shows t fs) (fits : Fits t.walk) :
    Draws t.walk (drawAll fs) := by
  obtain ⟨category, functions⟩ := shown
  have entering : _ = none := congrArg Hook.onEnter? category
  have leaving : _ = none := congrArg Hook.onLeave? category
  intro d b h
  rw [Tree.walk, heed_enter_none entering, heed_append, heed_leave_none leaving, heed,
    bind_pure_unit]
  exact functions.draws fits.node d b h

theorem assignmentLines_ne_empty (op : String) {names values : List String} (value : values ≠ [])
    (fits : values.length ≤ names.length) : assignmentLines op names values ≠ "" := by
  cases values with
  | nil => exact absurd rfl value
  | cons v values =>
      cases names with
      | nil => cases fits
      | cons n names =>
          intro empty
          have := congrArg String.toList empty
          simp [assignmentLines, String.toList_append] at this

theorem Body.Merged.prepend {line : String} {b : Body} (filled : line ≠ "") (merged : b.Merged) :
    (b.prepend line).Merged := by
  cases b with
  | run text rest =>
      refine ⟨fun empty => filled ?_, merged.2⟩
      have := congrArg String.toList empty
      rw [String.toList_append] at this
      exact String.toList_inj.mp (List.append_eq_nil_iff.mp this).1
  | done => exact ⟨filled, nofun, merged⟩
  | branch => exact ⟨filled, nofun, merged⟩
  | loop => exact ⟨filled, nofun, merged⟩

mutual

/-- The bodies that trees show have runs as long as they can be. -/
theorem Statements.merged {ts : List Tree} {body : Body} (shown : Statements ts body)
    (fits : Fits (Tree.walkAll ts)) : body.Merged :=
  match shown with
  | .none => trivial
  | .plain _ rest => rest.merged (Fits.append.mp fits).2
  | .within _ inner => by
      rw [Tree.walkAll, Fits.append] at fits
      exact inner.merged (by rw [walkAll_append, Fits.append]; exact ⟨fits.1.node, fits.2⟩)
  | .assignment category _ value rest => by
      rw [Tree.walkAll, Fits.append, Tree.walk, Fits.cons] at fits
      exact (rest.merged fits.2).prepend (assignmentLines_ne_empty _ value (fits.1.1 category))
  | .branch _ parts after => by
      rw [Tree.walkAll, Fits.append] at fits
      exact ⟨(parts.merged fits.1.node).1, (parts.merged fits.1.node).2, after.merged fits.2⟩
  | .loop _ _ inside after => by
      rw [Tree.walkAll, Fits.append] at fits
      have inner := fits.1.node
      simp only [Tree.walkAll, Fits.append] at inner
      exact ⟨inside.merged inner.2.2.1, after.merged fits.2⟩

theorem Block.merged {t : Tree} {body : Body} (shown : Block t body) (fits : Fits t.walk) :
    body.Merged :=
  match shown with
  | .intro _ statements => statements.merged fits.node

theorem BranchParts.merged {us : List Tree} {condition : String} {yes : Body} {no : Otherwise}
    (shown : BranchParts us condition yes no) (fits : Fits (Tree.walkAll us)) :
    yes.Merged ∧ no.Merged :=
  match shown with
  | .bare _ first => by
      simp only [Tree.walkAll, Fits.append] at fits
      exact ⟨first.merged fits.2.2.1, trivial⟩
  | .withElse _ first second => by
      simp only [Tree.walkAll, Fits.append] at fits
      exact ⟨first.merged fits.2.2.1, second.merged fits.2.2.2.2.1⟩
  | .withElseIf _ first _ parts => by
      simp only [Tree.walkAll, Fits.append] at fits
      exact ⟨first.merged fits.2.2.1, parts.merged fits.2.2.2.2.1.node⟩

end

theorem Declares.merged {t : Tree} {f : Function} (shown : Declares t f) (fits : Fits t.walk) :
    f.body.Merged := by
  obtain ⟨_, _, inside⟩ := shown
  have inner := fits.node
  simp only [walkAll_append, Tree.walkAll, Fits.append] at inner
  exact inside.merged inner.2.1

theorem Functions.merged {ts : List Tree} {fs : List Function} (shown : Functions ts fs)
    (fits : Fits (Tree.walkAll ts)) : ∀ f ∈ fs, f.body.Merged := by
  induction shown with
  | none => nofun
  | plain _ _ ih => exact ih (Fits.append.mp fits).2
  | declares first _ ih =>
      rw [Tree.walkAll, Fits.append] at fits
      exact List.forall_mem_cons.mpr ⟨first.merged fits.1, ih fits.2⟩

theorem Shows.merged {t : Tree} {fs : List Function} (shown : Shows t fs) (fits : Fits t.walk) :
    ∀ f ∈ fs, f.body.Merged := by
  obtain ⟨_, functions⟩ := shown
  exact functions.merged fits.node

/-- As many values as names are enough. -/
theorem fits_of_paired {es : List Event}
    (paired : ∀ e ∈ es, e.Assigns fun names values => values = names) : Fits es := by
  intro e he
  have same := paired e he
  unfold Event.Assigns at same ⊢
  split
  · exact fun category => (same category).le
  · trivial

/-- The walk through a tree that shows a source is completed just if the source can be drawn. -/
theorem Shows.follow {t : Tree} {fs : List Function} (shown : Shows t fs) (fits : Fits t.walk) :
    (((Builder.new .late).follow t).mishap = none ↔ (drawAll fs {}).isSome = true) ∧
      ∀ d, drawAll fs {} = some d → d.Encodes ((Builder.new .late).follow t).builder := by
  have agrees := shown.draws fits {} (Builder.new .late) encodes_new
  have heeded := go_heed none (Builder.new .late) t.walk
  have completed := go_mishap_eq_none none (Builder.new .late) t.walk
  rw [Builder.follow, completed, heeded.1]
  cases drawn : drawAll fs {} with
  | none =>
      rw [drawn] at agrees
      obtain ⟨e, c, stopped⟩ := agrees
      simp [stopped]
  | some d =>
      rw [drawn] at agrees
      obtain ⟨c, done, encodes⟩ := agrees
      simp [done, encodes]

end GoFlow
