import GoFlow.Proofs.Places
import GoFlow.Proofs.Rewiring

/-! How deep a walk stands: the level, and the levels noted for the if statements and loops that are
open. A hook changes them in a way that depends on nothing else, and a tree that has been walked
through leaves them as they were. -/

namespace GoFlow

open Move Builder

structure Depths where
  level : Int
  ifLevels : List Int
  forLevels : List Int

namespace Depths

/-- The depths after a hook of the late edition. The number is that of the node made last. -/
def after (number : Nat) (d : Depths) : Hook → Depths
  | .enterBlock => { d with level := d.level + 1 }
  | .leaveBlock => { d with level := d.level - 1 }
  | .enterIf => { d with ifLevels := d.level :: d.ifLevels }
  | .leaveIf => { d with ifLevels := d.ifLevels.tail }
  | .enterFor => { d with forLevels := (number : Int) :: d.forLevels }
  | .leaveFor => { d with forLevels := d.forLevels.tail }
  | _ => d

/-- What a hook of entering opens, the hook of leaving closes. -/
theorem after_leave (c : Category) (d : Depths) (n m : Nat) :
    let opened := (Hook.onEnter? c).elim d (d.after n)
    (Hook.onLeave? c).elim opened (opened.after m) = d := by
  cases c <;> simp [Hook.onEnter?, Hook.onLeave?, after]

end Depths

def Builder.depths (b : Builder) : Depths := ⟨b.level, b.ifLevels, b.forLevels⟩

namespace Move

variable {α β : Type} {f : Nat → Depths → Depths}

/-- Where the move is completed, the depths have changed by the function, which may look at the last
number. -/
def Deepens (f : Nat → Depths → Depths) (m : Move α) : Prop :=
  ∀ (b c : Builder) (a : α), b.perform m = (.ok a, c) → c.edition = b.edition ∧
    c.depths = f c.count b.depths

/-- The move leaves the depths alone. -/
abbrev Level (m : Move α) : Prop := Deepens (fun _ d => d) m

namespace Deepens

/-- The depths change after a move that leaves them alone. -/
theorem after {m : Move α} {g : α → Move β} (first : Level m) (next : ∀ a, Deepens f (g a)) :
    Deepens f (m >>= g) := by
  intro b c v done
  obtain ⟨a, d, early, late⟩ := of_perform_bind done
  obtain ⟨edition, same⟩ := first b d a early
  obtain ⟨edition', changed⟩ := next a d c v late
  exact ⟨edition'.trans edition, by rw [changed, same]⟩

/-- The depths change before a move that leaves them alone. -/
theorem before {f : Depths → Depths} {m : Move α} {g : α → Move β} (first : Deepens (fun _ => f) m)
    (next : ∀ a, Level (g a)) : Deepens (fun _ => f) (m >>= g) := by
  intro b c v done
  obtain ⟨a, d, early, late⟩ := of_perform_bind done
  obtain ⟨edition, changed⟩ := first b d a early
  obtain ⟨edition', same⟩ := next a d c v late
  exact ⟨edition'.trans edition, same.trans changed⟩

theorem modify {g : Builder → Builder} (edition : ∀ b, (g b).edition = b.edition)
    (depths : ∀ b, (g b).depths = f (g b).count b.depths) : Deepens f (modify g : Move Unit) := by
  intro b c a done
  cases done
  exact ⟨edition b, depths b⟩

theorem ite {p : Prop} [Decidable p] {m n : Move α} (hm : Deepens f m) (hn : Deepens f n) :
    Deepens f (if p then m else n) := by
  split
  · exact hm
  · exact hn

end Deepens

/-- What does not show texts and declarations has not changed. -/
theorem Texts.same {m : Move α} (h : Texts m) {b c : Builder} {r : Except Mishap α}
    (done : b.perform m = (r, c)) (f : Builder → β) (blind : ∀ b : Builder, f b.blank = f b) :
    f c = f b := by
  have same := (h b).blank
  rw [done] at same
  rw [← blind c, same, blind]

theorem Texts.level {m : Move α} (h : Texts m) : Level m := fun _ _ _ done =>
  ⟨h.same done Builder.edition fun _ => rfl, h.same done Builder.depths fun _ => rfl⟩

theorem Rewiring.level {m : Move α} (h : Rewiring m) : Level m := fun _ _ _ done =>
  ⟨(h.of done).same Builder.edition fun _ => rfl, (h.of done).same Builder.depths fun _ => rfl⟩

theorem newNode_level (kind content shape : String) : Level (newNode kind content shape) := by
  intro b c name done
  obtain ⟨_, _, _, rewires⟩ := newNode_declares done
  exact ⟨rewires.same Builder.edition fun _ => rfl, rewires.same Builder.depths fun _ => rfl⟩

theorem flush_level : Level flush := by
  have cleared : Level (modify fun b => { b with held := "" } : Move Unit) :=
    .modify (fun _ => rfl) fun _ => rfl
  refine Deepens.after Looks.get.texts.level fun b => ?_
  exact ((newNode_level "b" "" "box").after fun _ => cleared).ite cleared

theorem popIfLevel_deepens :
    Deepens (fun _ d => { d with ifLevels := d.ifLevels.tail }) popIfLevel := by
  intro b c n done
  rw [perform_popIfLevel] at done
  cases levels : b.ifLevels with
  | nil => rw [levels] at done; cases done
  | cons x xs =>
      rw [levels] at done
      cases done
      exact ⟨rfl, by simp [depths, levels]⟩

theorem popForLevel_deepens :
    Deepens (fun _ d => { d with forLevels := d.forLevels.tail }) popForLevel := by
  intro b c n done
  rw [perform_popForLevel] at done
  cases levels : b.forLevels with
  | nil => rw [levels] at done; cases done
  | cons x xs =>
      rw [levels] at done
      cases done
      exact ⟨rfl, by simp [depths, levels]⟩

theorem popIf_level : Level popIf := by
  intro b c x done
  rw [perform_popIf] at done
  cases ifs : b.ifs with
  | nil => rw [ifs] at done; cases done
  | cons x xs =>
      rw [ifs] at done
      cases done
      exact ⟨rfl, rfl⟩

end Move

namespace Move

theorem enterBlock_deepens : Deepens (fun _ d => { d with level := d.level + 1 }) enterBlock := by
  rw [enterBlock_eq]
  exact Deepens.before (.modify (by intro _; rfl) (by intro _; rfl)) fun _ =>
    noteBlock_rewiring.level

theorem leaveBlock_deepens : Deepens (fun _ d => { d with level := d.level - 1 }) leaveBlock :=
  Deepens.before (.modify (by intro _; rfl) (by intro _; rfl)) fun _ => flush_level

theorem enterIf_deepens (ts : List Tree) :
    Deepens (fun _ d => { d with ifLevels := d.level :: d.ifLevels }) (enterIf ts) := by
  have counted (x : Branches) : Level (modify fun b => { b with ifs := x :: b.ifs } : Move Unit) :=
    .modify (fun _ => rfl) fun _ => rfl
  have noted : Deepens (fun _ d => { d with ifLevels := d.level :: d.ifLevels }) (do
      modify fun b => { b with ifLevels := b.level :: b.ifLevels }
      if ts.length = 3 then modify fun b => { b with ifs := .thenOnly :: b.ifs }
      if ts.length = 5 then modify fun b => { b with ifs := .thenElse :: b.ifs } : Move Unit) := by
    refine Deepens.before (.modify (by intro _; rfl) (by intro _; rfl)) fun _ => ?_
    exact ((counted .thenOnly).after fun _ => (counted .thenElse).ite (Rewiring.pure _).level).ite
      ((counted .thenElse).ite (Rewiring.pure _).level)
  refine flush_level.after fun _ => (Rewiring.lift _).level.after fun text => ?_
  refine (newNode_level _ _ _).after fun node => edition_rewiring.level.after fun ed => ?_
  exact ((addFirst_rewiring _).level.after fun _ => noted).ite noted

theorem leaveIf_deepens (ts : List Tree) :
    Deepens (fun _ d => { d with ifLevels := d.ifLevels.tail }) (leaveIf ts) := by
  rw [leaveIf_eq]
  refine (closeIf_rewiring ts).level.after fun _ => popIf_level.after fun _ => ?_
  exact popIfLevel_deepens.before fun _ => (Rewiring.pure _).level

theorem enterFor_deepens (ts : List Tree) {b c : Builder} {u : Unit} (late : b.edition = .late)
    (done : b.perform (enterFor ts) = (.ok u, c)) :
    c.edition = .late ∧
      c.depths = { b.depths with forLevels := (c.count : Int) :: b.depths.forLevels } := by
  obtain ⟨_, d, flushed, done⟩ := of_perform_bind done
  obtain ⟨edition, same⟩ := flush_level _ _ _ flushed
  obtain ⟨condition, e, asked, done⟩ := of_perform_bind done
  obtain ⟨edition', same'⟩ := (Rewiring.lift _).level _ _ _ asked
  rw [perform_bind_ok (perform_edition e), edition', edition, late] at done
  have deepens : Deepens (fun n d => { d with forLevels := (n : Int) :: d.forLevels }) (do
      let _ ← newNode "l" ("for " ++ condition) "egg"
      modify fun b =>
        { b with forLevels := (b.count : Int) :: b.forLevels, breaks := b.breaks ++ [[]] }) :=
    (newNode_level _ _ _).after fun _ => .modify (fun _ => rfl) fun _ => rfl
  obtain ⟨edition'', changed⟩ := deepens _ _ _ done
  exact ⟨by rw [edition'', edition', edition, late], by rw [changed, same', same]⟩

theorem leaveFor_deepens {b c : Builder} {u : Unit} (late : b.edition = .late)
    (done : b.perform leaveFor = (.ok u, c)) :
    c.edition = .late ∧ c.depths = { b.depths with forLevels := b.depths.forLevels.tail } := by
  rw [leaveFor_eq, perform_bind_ok (perform_edition b), late] at done
  have deepens : Deepens (fun _ d => { d with forLevels := d.forLevels.tail }) (do
      popLoopLevel .late
      leaveLoop .late) :=
    (popForLevel_deepens.before fun _ => (Rewiring.pure _).level).before fun _ =>
      (leaveLoop_rewiring .late).level
  exact late ▸ deepens b c u done

end Move

/-- A hook that is completed changes the depths in its own way. -/
theorem Hook.run_depths (h : Hook) (ts : List Tree) {b c : Builder} {u : Unit}
    (late : b.edition = .late) (done : b.perform (h.run ts) = (.ok u, c)) :
    c.edition = .late ∧ c.depths = b.depths.after c.count h := by
  have of {f : Nat → Depths → Depths} (deepens : Deepens f (h.run ts)) :
      c.edition = .late ∧ c.depths = f c.count b.depths := late ▸ deepens b c u done
  cases h with
  | enterFunction =>
      exact of ((Rewiring.lift _).level.after fun _ => (newNode_level _ _ _).after fun _ =>
        (pushEnd_rewiring _).level)
  | leaveFunction =>
      exact of ((Rewiring.lift _).level.after fun _ => (newNode_level _ _ _).after fun _ =>
        (Rewiring.pure _).level)
  | enterBlock => exact of enterBlock_deepens
  | leaveBlock => exact of leaveBlock_deepens
  | enterConst => exact of (setPhase_texts .constDecl).level
  | leaveConst => exact of (leaveDeclaration_texts "const").level
  | enterVar => exact of (setPhase_texts .varDecl).level
  | leaveVar => exact of (leaveDeclaration_texts "var").level
  | enterAssignment => exact of (enterAssignment_texts ts).level
  | leaveNames => exact of (leaveNames_texts ts).level
  | leaveType => exact of (leaveType_texts ts).level
  | leaveValues => exact of (leaveValues_texts ts).level
  | enterIf => exact of (enterIf_deepens ts)
  | leaveIf => exact of (leaveIf_deepens ts)
  | enterFor => exact enterFor_deepens ts late done
  | leaveFor => exact leaveFor_deepens late done

section

variable {b c : Builder} {h : Head} {ts : List Tree}

theorem enter_depths (late : b.edition = .late) (passes : Passes [.enter h ts] b c) :
    c.edition = .late ∧ c.depths = (Hook.onEnter? h.category).elim b.depths
      (b.depths.after c.count) := by
  cases hook : Hook.onEnter? h.category with
  | none =>
      cases (passes_enter hook).mp passes
      exact ⟨late, rfl⟩
  | some k =>
      rw [Passes, heed_enter hook, heed, bind_pure_unit] at passes
      exact k.run_depths ts late passes

theorem leave_depths (late : b.edition = .late) (passes : Passes [.leave h ts] b c) :
    c.edition = .late ∧ c.depths = (Hook.onLeave? h.category).elim b.depths
      (b.depths.after c.count) := by
  cases hook : Hook.onLeave? h.category with
  | none =>
      cases (passes_leave hook).mp passes
      exact ⟨late, rfl⟩
  | some k =>
      rw [Passes, heed_leave hook, heed, bind_pure_unit] at passes
      exact k.run_depths ts late passes

end

mutual

/-- A tree that has been walked through leaves the depths as they were. -/
theorem Tree.walk_depths (t : Tree) {b c : Builder} (late : b.edition = .late)
    (passes : Passes t.walk b c) : c.edition = .late ∧ c.depths = b.depths :=
  match t with
  | .leaf _ => by
      cases passes
      exact ⟨late, rfl⟩
  | .node h ts => by
      obtain ⟨d, entered, passes⟩ :=
        passes_append.mp (show Passes ([.enter h ts] ++ _) b c from passes)
      obtain ⟨e, inside, left⟩ := passes_append.mp passes
      obtain ⟨late₁, opened⟩ := enter_depths late entered
      obtain ⟨late₂, same⟩ := Tree.walkAll_depths ts late₁ inside
      obtain ⟨late₃, closed⟩ := leave_depths late₂ left
      refine ⟨late₃, ?_⟩
      rw [closed, same, opened]
      exact Depths.after_leave h.category b.depths _ _

theorem Tree.walkAll_depths (ts : List Tree) {b c : Builder} (late : b.edition = .late)
    (passes : Passes (Tree.walkAll ts) b c) : c.edition = .late ∧ c.depths = b.depths :=
  match ts with
  | [] => by
      cases passes
      exact ⟨late, rfl⟩
  | t :: ts => by
      obtain ⟨d, first, rest⟩ :=
        passes_append.mp (show Passes (t.walk ++ Tree.walkAll ts) b c from passes)
      obtain ⟨late₁, same₁⟩ := t.walk_depths late first
      obtain ⟨late₂, same₂⟩ := Tree.walkAll_depths ts late₁ rest
      exact ⟨late₂, same₂.trans same₁⟩

end

end GoFlow
