import GoFlow.Proofs.Layers

/-! Functions with layered bodies, one after another. What is drawn for a function leads to its own
nodes, from its own nodes or from where the function before it ends. -/

namespace GoFlow

namespace Sketch

variable {d d' d₁ : Sketch}

/-- A function has been drawn, and none is open. -/
structure Between (d : Sketch) : Prop where
  outside : d.Outside
  level : d.level = 0
  loops : d.loops = []
  begun : 1 ≤ d.count

/-- The block of a function has been entered. -/
structure InFunction (f : Spot) (d d₁ : Sketch) : Prop where
  number : f.number = d.count + 1
  outside : d₁.Outside
  drawing : ∃ text, d₁.drawing = d.drawing.put f text "box" d.tips
  level : d₁.level = 1
  loops : d₁.loops = []
  firsts : d₁.firsts = d.firsts
  tips : d₁.tips = [.south f]

theorem enterFirst (name : String) :
    ∃ f d₁, (({} : Sketch).enterFunction name).bind enterBlock = some d₁ ∧
      InFunction f {} d₁ := by
  have entered : (({} : Sketch).enterFunction name).bind enterBlock = some _ := rfl
  refine ⟨⟨.entry, 1⟩, _, entered, rfl,
    ⟨rfl, (tidy_empty.enterFunction entered).1, rfl, ⟨_, _, rfl, rfl⟩, ?_, nofun,
    ?_, nofun, ?_⟩, ⟨name, rfl⟩, rfl, rfl, rfl, rfl⟩
  · exact known_push (n := 0) nofun rfl
  · intro p hp
    cases List.mem_singleton.mp hp
    exact List.mem_singleton_self _
  · exact Int.le_refl 1

theorem Between.enterFunction (h : d.Between) (name : String) :
    ∃ f d₁, (d.enterFunction name).bind enterBlock = some d₁ ∧ InFunction f d d₁ := by
  obtain ⟨below, under, ready, _⟩ := h.outside.ready
  have opening : d.opening = d.tips := h.outside.opening_eq (by rw [h.loops]; nofun)
  rw [opening] at ready
  have entered : (d.enterFunction name).bind enterBlock = some
      { d.putting ⟨.entry, d.count + 1⟩ name "box" d.tips below under with
        level := d.level + 1
        ends := .spot ⟨.entry, d.count + 1⟩ :: .spot ⟨.entry, d.count + 1⟩ :: under } := by
    rw [Sketch.enterFunction, ready.opens.place, Option.map_some, Option.bind_some, enterBlock]
    simp [putting, addTo_top]
  have level := h.level
  have begun := h.begun
  refine ⟨⟨.entry, d.count + 1⟩, _, entered, rfl,
    ⟨h.outside.held, (h.outside.tidy.enterFunction entered).1,
    h.outside.branches, ⟨_, below, rfl, rfl⟩, known_push ready.known rfl, List.cons_ne_nil _ _, ?_,
    ?_, ?_⟩, ⟨name, rfl⟩, ?_, h.loops, rfl, rfl⟩
  · intro p hp
    cases List.mem_singleton.mp hp
    exact List.mem_append_right _ (List.mem_singleton_self _)
  · change ∀ n ∈ d.loops.head?, _
    simp [h.loops]
  · change d.level + 1 ≤ ((d.count + 1 : Nat) : Int)
    omega
  · change d.level + 1 = 1
    omega

theorem enters_idle (idle : d = {} ∨ d.Between) (name : String) :
    ∃ f d₁, (d.enterFunction name).bind enterBlock = some d₁ ∧ InFunction f d d₁ := by
  rcases idle with rfl | between
  · exact enterFirst name
  · exact between.enterFunction name

theorem Between.of_adds {n : Nat} {ports : List Port} {d₁ : Sketch} (adds : Adds n ports d₁ d')
    (loops : d₁.loops = []) (level : d'.level = 0) : d'.Between := by
  have := adds.more
  exact ⟨adds.outside, level, adds.loops.trans loops, by omega⟩

/-- The firsts of loops only stay on the stack. -/
theorem Adds.newer {n : Nat} {ports : List Port} (adds : Adds n ports d d') :
    ∀ s ∈ d'.firsts, s ∈ d.firsts ∨ d.count < s.number := by
  intro s hs
  obtain ⟨new, firsts, _, newer⟩ := adds.firsts
  rw [firsts] at hs
  rcases List.mem_append.mp hs with late | early
  · exact .inr (newer s late).2
  · exact .inl early

theorem InFunction.grown {f : Spot} (h : InFunction f d d₁) : Grown d.tips d d₁ := by
  obtain ⟨_, drawing⟩ := h.drawing
  exact grown_of_put drawing h.number

theorem Outside.leaveFunction (h : d.Outside) (loops : d.loops = []) (name : String) :
    ∃ d', d.leaveFunction name = some d' ∧ d'.level = d.level ∧ Adds 0 d.tips d d' ∧
      Fed d.tips d d' := by
  obtain ⟨below, under, ready, old⟩ := h.ready
  have opening : d.opening = d.tips := h.opening_eq (by rw [loops]; nofun)
  rw [opening] at ready
  have role := d.blockRole_plain
  have drawn : Drawn (.block ⟨d.blockRole, d.count + 1⟩ (name ++ " end") .done) d.tips d.drawing
      (d.drawing.put ⟨d.blockRole, d.count + 1⟩ (name ++ " end") "box" d.tips) :=
    .block rfl role.2.2.2 _ _
  refine ⟨_, ready.opens.place _ _ _, rfl,
    h.adds (fun done => by cases done) drawn ⟨h.held, rfl, rfl, rfl, rfl⟩
      (endsAt_putting ⟨role.1, role.2.1, role.2.2.1⟩ _ _ _ _ _) (fun y hy => ?_)
      fun y hy => .inl (old y hy), fed_of_drawn drawn h.tail⟩
  exact known_mono (ready.known y hy) (Nat.le_succ _)

end Sketch

open Sketch

variable {d d' : Sketch}

theorem Function.layers (f : Function) (layered : f.body.Layered) (merged : f.body.Merged)
    (idle : d = {} ∨ d.Between) :
    ∃ s d₁ d' n, (d.enterFunction f.name).bind enterBlock = some d₁ ∧ InFunction s d d₁ ∧
      f.draw d = some d' ∧
      d'.Between ∧ Adds n d₁.tips d₁ d' ∧ (f.body.Joined d₁ → Fed d₁.tips d₁ d') := by
  obtain ⟨s, d₁, entered, inside⟩ := enters_idle idle f.name
  have level₁ := inside.level
  rw [Function.draw_eq, entered, Option.bind_some]
  by_cases last : f.body = .done
  · obtain ⟨d', left, level, adds, fed⟩ := inside.outside.lower.leaveFunction inside.loops f.name
    have level : d'.level = 0 := level.trans (show d₁.level - 1 = 0 by omega)
    refine ⟨s, d₁, d', 0, rfl, inside, ?_, .of_adds adds inside.loops level, adds.of_lower,
      fun _ => fed⟩
    rw [last, finish_held inside.outside.held, Option.bind_some, left]
  · obtain ⟨d₂, finished, level₂, adds, fed⟩ := f.body.layers layered merged last d₁ inside.outside
    have loops₂ := adds.loops.trans inside.loops
    obtain ⟨d', left, level, adds', fed'⟩ := adds.outside.leaveFunction loops₂ f.name
    have level : d'.level = 0 := by omega
    refine ⟨s, d₁, d', _, rfl, inside, ?_, .of_adds adds' loops₂ level,
      (adds.trans adds' (List.Subset.refl _)).mono (f.body.entry_subset d₁), fun joined => ?_⟩
    · rw [finished, Option.bind_some, left]
    · exact (fed joined).trans fed' adds.grown.count adds'.grown fun p hp =>
        ⟨adds.outside.made p hp, adds.tips p hp⟩

theorem layers_all (fs : List Function) (layered : ∀ f ∈ fs, f.body.Layered)
    (merged : ∀ f ∈ fs, f.body.Merged) (idle : d = {} ∨ d.Between) :
    ∃ d', drawAll fs d = some d' ∧
      (fs = [] ∧ d' = d ∨ d'.Between ∧ ∀ p ∈ d'.tips, d.count < p.spot.number) ∧
      Grown d.tips d d' ∧ ∀ s ∈ d'.firsts, s ∈ d.firsts ∨ d.count < s.number := by
  induction fs generalizing d with
  | nil =>
      exact ⟨d, rfl, .inl ⟨rfl, rfl⟩,
        ⟨le_rfl, ⟨[], by simp, nofun⟩, fun x => id, fun p t a => .inl⟩, fun s => .inl⟩
  | cons f fs ih =>
      obtain ⟨layeredFirst, layered⟩ := List.forall_mem_cons.mp layered
      obtain ⟨mergedFirst, merged⟩ := List.forall_mem_cons.mp merged
      obtain ⟨s, d₁, d₂, n, _, inside, drew, between, adds, _⟩ :=
        f.layers layeredFirst mergedFirst idle
      obtain ⟨d', drewRest, ends, grown, firsts⟩ := ih layered merged (.inr between)
      have number := inside.number
      have more := inside.grown.count
      have new : ∀ p ∈ d₂.tips, d.count < p.spot.number :=
        fun p hp => Nat.lt_of_le_of_lt more (adds.tips p hp)
      have first : Grown d.tips d d₂ := inside.grown.trans adds.grown fun p hp => by
        rw [inside.tips] at hp
        cases List.mem_singleton.mp hp
        exact number ▸ Nat.lt_succ_self _
      refine ⟨d', ?_, .inr ?_, first.trans grown new, fun s hs => ?_⟩
      · rw [drawAll, drew]
        exact drewRest
      · rcases ends with ⟨_, rfl⟩ | ⟨between', tips⟩
        · exact ⟨between, new⟩
        · exact ⟨between', fun p hp => Nat.lt_of_le_of_lt first.count (tips p hp)⟩
      · rcases firsts s hs with early | late
        · exact inside.firsts ▸ (adds.newer s early).imp_right (Nat.lt_of_le_of_lt more)
        · exact .inr (Nat.lt_of_le_of_lt first.count late)

end GoFlow
