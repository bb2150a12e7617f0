import GoFlow.Proofs.Reach

/-! The two sides of an if statement. In a source with layered bodies, what is drawn after an if
statement begins or ends at a node that was there before it or that is made after it, so that no
edge ever leads from the then block to the else block. -/

namespace GoFlow

open Dot (Statement endNode)
open Move Builder Sketch

namespace Sketch

variable {d d' d₁ d₂ d₃ : Sketch} {n : Nat} {ports : List Port} {below under : List Tip}

/-- Statements are entered in the same way. -/
structure Alike (d d₁ : Sketch) : Prop where
  enterIf : ∀ condition kind, d.enterIf condition kind = d₁.enterIf condition kind
  enterFor : ∀ condition, d.enterFor condition = d₁.enterFor condition

theorem Alike.refl (d : Sketch) : Alike d d := ⟨fun _ _ => rfl, fun _ => rfl⟩

theorem Alike.symm (alike : Alike d d₁) : Alike d₁ d :=
  ⟨fun condition kind => (alike.enterIf condition kind).symm, fun condition =>
    (alike.enterFor condition).symm⟩

theorem alike_of_flush (flushed : d.flush = some d₁) : Alike d d₁ := by
  have again : d₁.flush = some d₁ := flush_held (held_of_flush flushed)
  refine ⟨fun condition kind => ?_, fun condition => ?_⟩
  · rw [Sketch.enterIf, Sketch.enterIf, flushed, again]
  · rw [Sketch.enterFor, Sketch.enterFor, flushed, again]

theorem Alike.drawIf (alike : Alike d d₁) (condition : String) (yes : Body) (no : Otherwise) :
    drawIf condition yes no d = drawIf condition yes no d₁ := by
  rw [GoFlow.drawIf, GoFlow.drawIf, alike.enterIf]

theorem Alike.drawFor (alike : Alike d d₁) (condition : String) (body : Body) :
    drawFor condition body d = drawFor condition body d₁ := by
  rw [GoFlow.drawFor, GoFlow.drawFor, alike.enterFor]

end Sketch

/-- From sketches that are alike, drawing comes to the same statements. -/
theorem Compound.Reaches.alike {s s' : Compound} {d d₁ e : Sketch} (reaches : s.Reaches d s' e)
    (alike : Alike d d₁) : ∃ e₁, s.Reaches d₁ s' e₁ ∧ Alike e e₁ := by
  cases reaches with
  | here => exact ⟨d₁, .here _ _, alike⟩
  | yes entered inside => exact ⟨e, .yes (by rw [← alike.enterIf]; exact entered) inside, .refl e⟩
  | no merged entered finished begun inside =>
      exact ⟨e, .no merged (by rw [← alike.enterIf]; exact entered) finished begun inside, .refl e⟩
  | elseIf merged entered finished inside =>
      exact ⟨e, .elseIf merged (by rw [← alike.enterIf]; exact entered) finished inside, .refl e⟩
  | body entered inside =>
      exact ⟨e, .body (by rw [← alike.enterFor]; exact entered) inside, .refl e⟩

theorem Body.Reaches.alike {b : Body} (statement : ∀ text rest, b ≠ .run text rest) {s : Compound}
    {d d₁ e : Sketch} (reaches : b.Reaches d s e) (alike : Alike d d₁) :
    ∃ e₁, b.Reaches d₁ s e₁ ∧ Alike e e₁ := by
  cases reaches with
  | run => exact absurd rfl (statement _ _)
  | branch inside =>
      obtain ⟨e₁, reaches, same⟩ := inside.alike alike
      exact ⟨e₁, .branch reaches, same⟩
  | afterBranch merged drew later =>
      exact ⟨e, .afterBranch merged (by rw [← alike.drawIf]; exact drew) later, .refl e⟩
  | loop inside =>
      obtain ⟨e₁, reaches, same⟩ := inside.alike alike
      exact ⟨e₁, .loop reaches, same⟩
  | afterLoop merged drew later =>
      exact ⟨e, .afterLoop merged (by rw [← alike.drawFor]; exact drew) later, .refl e⟩

namespace Sketch

variable {d d' d₁ d₂ d₃ : Sketch} {n : Nat} {ports : List Port} {below under : List Tip}

/-- More has been drawn. A new edge begins at a node up to the number, or it begins or ends at one
of the firsts, or it leads to a new node. -/
structure Follows (n : Nat) (d d' : Sketch) : Prop where
  count : d.count ≤ d'.count
  firsts : ∀ s ∈ d'.firsts, s ∈ d.firsts ∨ d.count < s.number
  edges : ∀ p t a, .edge p t a ∈ d'.strokes → .edge p t a ∈ d.strokes ∨ p.spot.number ≤ n ∨
    p.spot ∈ d.firsts ∨ t ∈ d.firsts ∨ d.count < t.number

theorem Grown.follows (grown : Grown ports d d')
    (firsts : ∀ s ∈ d'.firsts, s ∈ d.firsts ∨ d.count < s.number) (n : Nat) : Follows n d d' :=
  ⟨grown.count, firsts, fun p t a edge => (grown.edges p t a edge).imp_right fun new =>
    .inr (.inr (.inr new.1))⟩

theorem Adds.follows {m : Nat} (adds : Adds m ports d d') (n : Nat) : Follows n d d' :=
  adds.grown.follows adds.newer n

theorem follows_of_leaving {s : Spot} {more : List Stroke} (left : d.leaveFor = some d')
    (firsts : d'.firsts = d.firsts) (top : s ∈ d.firsts)
    (strokes : d'.strokes = d.strokes ++ more)
    (exits : ∀ y ∈ more, ∃ p t a, y = .edge p t a ∧ (p = .south s ∨ t = s ∨ d.count < t.number))
    (n : Nat) : Follows n d d' := by
  obtain ⟨_, _, _, _, _, count, _⟩ := leaveFor_some left
  refine ⟨count, fun x hx => .inl (firsts ▸ hx), fun p t a edge => ?_⟩
  rw [strokes, List.mem_append] at edge
  refine edge.imp_right fun exit => .inr ?_
  obtain ⟨_, _, _, same, rfl | rfl | new⟩ := exits _ exit <;> cases same
  · exact .inl top
  · exact .inr (.inl top)
  · exact .inr (.inr new)

theorem follows_of_drawn {p : Plan} (drawn : Drawn p ports d.drawing d'.drawing)
    (firsts : d'.firsts = d.firsts) (n : Nat) : Follows n d d' :=
  (grown_of_drawn drawn).follows (fun _ hs => .inl (firsts ▸ hs)) n

/-- The number is that of a node made before the then block, or after the else block. -/
def Outlies (d₁ d₃ : Sketch) (n : Nat) : Prop := n ≤ d₁.count ∨ d₃.count < n

/-- A then block has been drawn from the first sketch to the second, and an else block from there to
the third one. An edge drawn since has an end that belongs to neither of them. -/
structure Sided (d₁ d₂ d₃ d' : Sketch) : Prop where
  yes : ∀ s ∈ d₂.nodes, s ∉ d₁.nodes → d₁.count < s.number ∧ s.number ≤ d₃.count
  no : ∀ s ∈ d₃.nodes, s ∉ d₂.nodes → d₂.count < s.number ∧ s.number ≤ d₃.count
  middle : d₁.count ≤ d₂.count
  count : d₃.count ≤ d'.count
  firsts : ∀ s ∈ d'.firsts, Outlies d₁ d₃ s.number
  edges : ∀ p t a, .edge p t a ∈ d'.strokes →
    .edge p t a ∈ d₂.strokes ∨ Outlies d₁ d₃ p.spot.number ∨ Outlies d₁ d₃ t.number

theorem Sided.follows (h : Sided d₁ d₂ d₃ d) (later : Follows n d d') (before : n ≤ d₁.count) :
    Sided d₁ d₂ d₃ d' where
  yes := h.yes
  no := h.no
  middle := h.middle
  count := h.count.trans later.count
  firsts := fun s hs => (later.firsts s hs).elim (h.firsts s) fun new =>
    .inr (Nat.lt_of_le_of_lt h.count new)
  edges := by
    intro p t a edge
    rcases later.edges p t a edge with old | early | first | first | new
    · exact h.edges p t a old
    · exact .inr (.inl (.inl (early.trans before)))
    · exact .inr (.inl (h.firsts _ first))
    · exact .inr (.inr (h.firsts _ first))
    · exact .inr (.inr (.inr (Nat.lt_of_le_of_lt h.count new)))

/-- No edge leads from the then block to the else block. -/
theorem Sided.apart (h : Sided d₁ d₂ d₃ d')
    (closed : ∀ p t a, .edge p t a ∈ d₂.strokes → t.number ≤ d₂.count) {p : Port} {t : Spot}
    {a : List (String × String)} (tail : p.spot ∈ d₂.nodes) (inThen : p.spot ∉ d₁.nodes)
    (head : t ∈ d₃.nodes) (inElse : t ∉ d₂.nodes) : .edge p t a ∉ d'.strokes := by
  intro edge
  have yes := h.yes _ tail inThen
  have no := h.no t head inElse
  have middle := h.middle
  rcases h.edges p t a edge with old | (early | late) | (early | late)
  · have := closed p t a old
    omega
  all_goals omega

end Sketch

/-- In the later sketch, the sides of the if statement are apart; it was entered after so many
nodes. -/
def Compound.Kept (n : Nat) (e d' : Sketch) : Compound → Prop
  | .fork condition yes no => ∃ d₁ d₂ d₃,
      (e.enterIf condition no.branches).bind enterBlock = some d₁ ∧
      yes.finish d₁ = some d₂ ∧ no.draw d₂ = some d₃ ∧ n ≤ d₁.count ∧ Sided d₁ d₂ d₃ d'
  | .loop _ _ => True

namespace Compound.Kept

variable {s : Compound} {m n : Nat} {e e₁ d d' : Sketch}

theorem follows (kept : s.Kept n e d) (later : Follows n d d') : s.Kept n e d' := by
  cases s with
  | fork condition yes no =>
      obtain ⟨d₁, d₂, d₃, entered, finished, drew, before, sided⟩ := kept
      exact ⟨d₁, d₂, d₃, entered, finished, drew, before, sided.follows later before⟩
  | loop => trivial

theorem mono (kept : s.Kept n e d) (less : m ≤ n) : s.Kept m e d := by
  cases s with
  | fork condition yes no =>
      obtain ⟨d₁, d₂, d₃, entered, finished, drew, before, sided⟩ := kept
      exact ⟨d₁, d₂, d₃, entered, finished, drew, less.trans before, sided⟩
  | loop => trivial

theorem alike (kept : s.Kept n e d) (same : Alike e₁ e) : s.Kept n e₁ d := by
  cases s with
  | fork condition yes no =>
      obtain ⟨d₁, d₂, d₃, entered, rest⟩ := kept
      exact ⟨d₁, d₂, d₃, by rw [same.enterIf]; exact entered, rest⟩
  | loop => trivial

end Compound.Kept

/-- Wherever the body is drawn as a plan, the sides of its if statements are apart. -/
def Body.Keeps (b : Body) : Prop :=
  ∀ (d : Sketch) (ports : List Port) (below under : List Tip), d.Ready ports below under →
    (b.IsRun → d.lower.Opens ports below under) →
    (b.endsInBranch = true ∨ b.IsRun ∨ d.branches = []) →
    ∀ s e, b.Reaches d s e → ∃ d', b.finish d = some d' ∧ s.Kept d.count e d'

theorem Body.IsRun.reaches {b : Body} (single : b.IsRun) {d e : Sketch} {s : Compound} :
    ¬ b.Reaches d s e := by
  obtain ⟨text, rfl⟩ := single
  intro reaches
  cases reaches with
  | run later => cases later

namespace Sketch

variable {d d' d₂ d₃ d₅ : Sketch} {ports : List Port} {below under below₃ : List Tip}
  {condition text : String} {c x : Spot} {p : Plan}

namespace AfterThen

theorem follows (after : d.AfterThen ports below under condition c p d₂ d₃ below₃)
    (count : d₃.count ≤ d'.count) (firsts : d'.firsts = d.firsts)
    (exits : ∀ q t a, .edge q t a ∈ d'.strokes → .edge q t a ∈ d₃.strokes ∨ q = .south c) :
    Follows d₂.count d₃ d' := by
  refine ⟨count, fun s hs => .inl ?_, fun q t a edge =>
    (exits q t a edge).imp_right fun same => .inl ?_⟩
  · rw [after.firsts]
    exact List.mem_cons_of_mem c (firsts ▸ hs)
  · have count₂ : d₂.count = d.count + 1 := congrArg Drawing.count after.begun
    rw [same, count₂]
    exact after.number.le

theorem sided (after : d.AfterThen ports below under condition c p d₂ d₃ below₃)
    (drawnElse : Drawn (.block x text .done) [] d₃.drawing d₅.drawing)
    (count : d₅.count ≤ d'.count) (bounded : ∀ s ∈ d.firsts, s.number ≤ d.count)
    (firsts : d'.firsts = d.firsts)
    (exits : ∀ q t a, .edge q t a ∈ d'.strokes → .edge q t a ∈ d₃.strokes ∨ q = .south c) :
    Sided d₂ d₃ d₅ d' := by
  have count₂ : d₂.count = d.count + 1 := congrArg Drawing.count after.begun
  have count₃ : d₃.count = d₂.count + p.all.length := after.drawn.count
  have count₅ : d₅.count = d₃.count + 1 := drawnElse.count
  have nodes₃ : d₃.nodes = d₂.nodes ++ p.spots := after.drawn.nodes
  have nodes₅ : d₅.nodes = d₃.nodes ++ [x] := drawnElse.nodes
  refine ⟨fun s hs new => ?_, fun s hs new => ?_, by omega, count, fun s hs => .inl ?_,
    fun q t a edge => ?_⟩
  · rw [nodes₃, List.mem_append] at hs
    have bounds := after.drawn.numbers.bounds (p.spots_sublist.subset (hs.resolve_left new))
    change d₂.count < s.number ∧ s.number ≤ d₂.count + p.all.length at bounds
    omega
  · rw [nodes₅, List.mem_append, List.mem_singleton] at hs
    cases hs.resolve_left new
    have bounds : d₃.count < x.number ∧ x.number ≤ d₃.count + 1 :=
      drawnElse.numbers.bounds List.mem_cons_self
    omega
  · have := bounded s (firsts ▸ hs)
    omega
  · refine (exits q t a edge).imp_right fun same => .inl (.inl ?_)
    rw [same, count₂]
    exact after.number.le

end AfterThen

theorem Ready.keepsIf (ready : d.Ready ports below under) {yes : Body} (asPlan : yes.DrawsAsPlan)
    (keeps : yes.Keeps) (shape : yes.IsRun ∨ yes.endsInBranch = true) (filled : text ≠ "")
    {s : Compound} {e : Sketch}
    (reaches : (Compound.fork condition yes (.block (.run text .done))).Reaches d s e) :
    ∃ d', drawIf condition yes (.block (.run text .done)) d = some d' ∧ s.Kept d.count e d' := by
  obtain ⟨c, p, d₂, d₃, below₃, entered, finished, _, after⟩ :=
    ready.drawsThen asPlan shape condition
  obtain ⟨x, d₅, d', drewElse, left, drawnElse, drawn, strokes, frame, _⟩ :=
    after.drawsElse ready.sorted.firsts filled
  obtain ⟨_, _, _, _, _, _, count, _⟩ := leaveIf_some left
  have count₂ : d₂.count = d.count + 1 := congrArg Drawing.count after.begun
  have count₅ : d₅.count = d₃.count + 1 := drawnElse.count
  have exits : ∀ q t a, .edge q t a ∈ d'.strokes → .edge q t a ∈ d₃.strokes ∨ q = .south c := by
    intro q t a edge
    rw [strokes, List.mem_append] at edge
    refine edge.imp_right fun new => ?_
    simp only [List.mem_cons, reduceCtorEq, Stroke.edge.injEq, List.not_mem_nil, or_false, false_or]
      at new
    rcases new with ⟨same, _⟩ | ⟨same, _⟩ <;> exact same
  refine ⟨d', drawIf_of_parts entered finished drewElse left, ?_⟩
  cases reaches with
  | here =>
      exact ⟨d₂, d₃, d₅, entered, finished, drewElse, by omega,
        after.sided drawnElse (by omega) ready.sorted.firsts frame.firsts exits⟩
  | yes entered' inside =>
      cases entered.symm.trans entered'
      obtain ⟨_, d₂', entered', hc, ready₂, lower₂, _⟩ := ready.enterThen condition .thenElse
      cases entered.symm.trans entered'
      obtain ⟨_, finished', kept⟩ :=
        keeps d₂ _ _ _ ready₂ (fun _ => lower₂) (shape.symm.imp_right .inl) s e inside
      cases finished.symm.trans finished'
      exact (kept.follows (after.follows (by omega) frame.firsts exits)).mono (by omega)
  | no _ _ _ _ inside => exact absurd inside (Body.IsRun.reaches ⟨text, rfl⟩)

end Sketch

theorem Body.keeps : (b : Body) → b.Structured false → b.Merged → b.Keeps
  | .done, _, _ => fun _ _ _ _ _ _ _ _ _ reaches => by cases reaches
  | .run text rest, structured, merged => by
      intro d ports below under ready single shape s e reaches
      cases reaches with
      | run later =>
          have last : rest ≠ .done := by
            rintro rfl
            cases later
          obtain ⟨x, d₁, flushed, drawn, frame, endsAt⟩ := ready.opens.drawsRun ready.held merged.1
          have count : d₁.count = d.count + 1 := drawn.count
          have ready₁ :=
            endsAt.ready ready drawn frame fun y hy => known_mono (ready.known y hy) (by omega)
          obtain ⟨e₁, reaches, same⟩ := later.alike merged.2.1 (alike_of_flush flushed)
          have shape :=
            ends_rest rest shape (fun ⟨_, same⟩ => by cases same; exact last rfl) fun _ => rfl
          obtain ⟨d', finished, kept⟩ := rest.keeps structured merged.2.2 d₁ _ _ _ ready₁
            (fun single => absurd reaches single.reaches)
            (shape.imp_right fun h => .inr (frame.branches.trans (h.resolve_left last))) s
            e₁ reaches
          refine ⟨d', ?_, (kept.alike same).mono (by omega)⟩
          rw [finish_run text rest last merged, flushed]
          exact finished
  | .branch condition yes no rest, structured, merged => by
      obtain ⟨⟨structuredYes, shapeYes⟩, ⟨text, rfl⟩, structured⟩ := structured
      obtain ⟨mergedYes, mergedNo, merged⟩ := merged
      intro d ports below under ready single shape s e reaches
      have asPlan := yes.drawsAsPlan structuredYes mergedYes
      have shape := ends_rest rest shape (fun ⟨_, same⟩ => by cases same) endsInBranch_branch
      obtain ⟨c, p, x, d₁, drew, _, drawn, frame, below₁, endsAt, _, known, _⟩ :=
        ready.drawsIf asPlan shapeYes mergedNo.1 condition
      have ready₁ := endsAt.ready ready drawn frame known
      have count : d₁.count = d.count + _ := drawn.count
      cases reaches with
      | branch inside =>
          obtain ⟨_, drew', kept⟩ :=
            ready.keepsIf asPlan (yes.keeps structuredYes mergedYes) shapeYes mergedNo.1 inside
          cases drew.symm.trans drew'
          obtain ⟨q, d', finished, _, drawnRest, frame', _⟩ :=
            (rest.drawsAsPlan structured merged).after drawn frame endsAt ready₁ shape
          refine ⟨d', ?_,
            kept.follows (follows_of_drawn drawnRest (frame'.firsts.trans frame.firsts.symm) _)⟩
          rw [finish_branch, drew]
          exact finished
      | afterBranch _ drew' later =>
          cases drew.symm.trans drew'
          have last : rest ≠ .done := by
            rintro rfl
            cases later
          obtain ⟨d', finished, kept⟩ := rest.keeps structured merged d₁ _ _ _ ready₁
            (fun single => absurd later single.reaches)
            (shape.imp_right fun h => .inr (frame.branches.trans (h.resolve_left last))) s e later
          refine ⟨d', ?_, kept.mono (by omega)⟩
          rw [finish_branch, drew]
          exact finished
  | .loop _ _ _, structured, _ => absurd structured.1 (by decide)

namespace Body

theorem Layered.follows {b : Body} (layered : b.Layered) (merged : b.Merged) {d : Sketch}
    (outside : d.Outside) (n : Nat) : ∃ d', b.finish d = some d' ∧ Follows n d d' := by
  by_cases last : b = done
  · subst last
    exact ⟨d.lower, finish_held outside.held, le_rfl, fun _ => .inl, fun _ _ _ => .inl⟩
  · obtain ⟨d', finished, _, adds, _⟩ := b.layers layered merged last d outside
    exact ⟨d', finished, adds.follows n⟩

theorem layered_keeps : (b : Body) → b.Layered → b.Merged → ∀ {d : Sketch}, d.Outside →
    ∀ {s : Compound} {e : Sketch}, b.Reaches d s e → ∃ d', b.finish d = some d' ∧
      s.Kept d.count e d'
  | .done, _, _, _, _, _, _, reaches => by cases reaches
  | .run text rest, layered, merged, d, outside, s, e, reaches => by
      cases reaches with
      | run later =>
          have last : rest ≠ .done := by
            rintro rfl
            cases later
          obtain ⟨d₁, flushed, _, adds, _⟩ := outside.drawsRun merged.1
          obtain ⟨e₁, reaches, same⟩ := later.alike merged.2.1 (alike_of_flush flushed)
          obtain ⟨d', finished, kept⟩ := rest.layered_keeps layered merged.2.2 adds.outside reaches
          refine ⟨d', ?_, (kept.alike same).mono adds.grown.count⟩
          rw [finish_run text rest last merged, flushed]
          exact finished
  | .branch condition yes no rest, layered, merged, d, outside, s, e, reaches => by
      obtain ⟨⟨structuredYes, shapeYes⟩, ⟨text, rfl⟩, layered⟩ := layered
      obtain ⟨mergedYes, mergedNo, merged⟩ := merged
      have asPlan := yes.drawsAsPlan structuredYes mergedYes
      obtain ⟨d₁, drew, _, adds, _⟩ := outside.drawsBranch asPlan shapeYes mergedNo.1 condition
      rw [finish_branch, drew, Option.bind_some]
      cases reaches with
      | branch inside =>
          obtain ⟨_, _, ready, _⟩ := outside.ready
          obtain ⟨_, drew', kept⟩ :=
            ready.keepsIf asPlan (yes.keeps structuredYes mergedYes) shapeYes mergedNo.1 inside
          cases drew.symm.trans drew'
          obtain ⟨d', finished, later⟩ := layered.follows merged adds.outside d.count
          exact ⟨d', finished, kept.follows later⟩
      | afterBranch _ drew' later =>
          cases drew.symm.trans drew'
          obtain ⟨d', finished, kept⟩ := rest.layered_keeps layered merged adds.outside later
          exact ⟨d', finished, kept.mono adds.grown.count⟩
  | .loop condition body rest, layered, merged, d, outside, s, e, reaches => by
      obtain ⟨⟨layeredBody, nonempty⟩, layered⟩ := layered
      obtain ⟨mergedBody, merged⟩ := merged
      obtain ⟨l, d₁, entered, block⟩ := outside.entersLoop condition
      obtain ⟨d₂, finished, level, inside, _⟩ :=
        body.layers layeredBody mergedBody nonempty d₁ block.outside
      obtain ⟨d₃, first, more, left, top, adds, _, _, firsts, strokes, exits, _⟩ :=
        block.leaves outside inside (body.entry_subset d₁) (by rw [level, block.level]; omega)
      have drew : drawFor condition body d = some d₃ := drawFor_of_parts entered finished left
      rw [finish_loop, drew, Option.bind_some]
      cases reaches with
      | loop within =>
          obtain ⟨d', finishedRest, later⟩ := layered.follows merged adds.outside d.count
          refine ⟨d', finishedRest, ?_⟩
          cases within with
          | here => trivial
          | body entered' within =>
              cases entered.symm.trans entered'
              obtain ⟨_, finished', kept⟩ :=
                body.layered_keeps layeredBody mergedBody block.outside within
              cases finished.symm.trans finished'
              have leaving := follows_of_leaving left firsts top strokes exits d₁.count
              exact ((kept.follows leaving).mono block.grown.count).follows later
      | afterLoop _ drew' later =>
          cases drew.symm.trans drew'
          obtain ⟨d', finished, kept⟩ := rest.layered_keeps layered merged adds.outside later
          exact ⟨d', finished, kept.mono adds.grown.count⟩

end Body

theorem kept_of_layered {gs rest : List Function} {f : Function}
    (layered : ∀ g ∈ gs ++ f :: rest, g.body.Layered)
    (merged : ∀ g ∈ gs ++ f :: rest, g.body.Merged) {d d₁ e : Sketch} {s : Compound}
    (drew : drawAll gs {} = some d) (entered : (d.enterFunction f.name).bind enterBlock = some d₁)
    (reaches : f.body.Reaches d₁ s e) :
    ∃ d', drawAll (gs ++ f :: rest) {} = some d' ∧ s.Kept d₁.count e d' := by
  simp only [List.forall_mem_append, List.forall_mem_cons] at layered merged
  obtain ⟨_, drew', idle, _⟩ := layers_all gs layered.1 merged.1 (.inl rfl)
  cases drew.symm.trans drew'
  obtain ⟨_, _, d₄, _, entered', inside, drewHere, between, _⟩ :=
    f.layers layered.2.1 merged.2.1 (idle.imp And.right And.left)
  cases entered.symm.trans entered'
  have nonempty : f.body ≠ .done := by
    intro none
    rw [none] at reaches
    cases reaches
  obtain ⟨d₂, finished, _, adds, _⟩ :=
    f.body.layers layered.2.1 merged.2.1 nonempty d₁ inside.outside
  obtain ⟨_, finished', kept⟩ := f.body.layered_keeps layered.2.1 merged.2.1 inside.outside reaches
  cases finished.symm.trans finished'
  obtain ⟨d₃, left, _, adds', _⟩ :=
    adds.outside.leaveFunction (adds.loops.trans inside.loops) f.name
  have whole := drewHere
  rw [Function.draw_eq, entered, Option.bind_some, finished, Option.bind_some, left] at whole
  cases whole
  obtain ⟨d', drewRest, _, grown, firsts⟩ := layers_all rest layered.2.2 merged.2.2 (.inr between)
  refine ⟨d', ?_, (kept.follows (adds'.follows _)).follows (grown.follows firsts _)⟩
  rw [drawAll_append, drew, Option.bind_some, drawAll, drewHere]
  exact drewRest

/-! While a tree is walked the graph only grows. -/

theorem Passes.accounted {ed : Edition} {es : List Event} {b c : Builder} (passes : Passes es b c)
    (accounted : b.Accounted ed) : c.Accounted ed := by
  have outcome := accounted.heed es
  rw [Passes] at passes
  rwa [passes] at outcome

theorem graph_heed {b : Builder} (regular : b.Regular) (es : List Event) :
    b.graph <+: (b.perform (heed es)).2.graph := by
  refine (heed_keeps (P := fun c => b.graph <+: c.graph) (T := fun _ => True) trivial (.any es)
    regular (fun _ grown progress => ?_) List.prefix_rfl).2
  exact grown.trans progress.graph_prefix

theorem built_grows {es fs : List Event} (initial : es <+: fs) :
    (built es).graph <+: (built fs).graph := by
  obtain ⟨more, rfl⟩ := initial
  rw [built, built, (go_heed none (Builder.new .late) es).1,
    (go_heed none (Builder.new .late) (es ++ more)).1, heed_append, perform_bind]
  have accounted := (Accounted.new .late).heed es
  generalize (Builder.new .late).perform (heed es) = r at accounted
  obtain ⟨m | u, c⟩ := r
  · exact List.prefix_rfl
  · exact graph_heed accounted.toRegular more

theorem declared_mono {es fs : List Event} (initial : es <+: fs) {name : String}
    (member : name ∈ (built es).declared) : name ∈ (built fs).declared := by
  obtain ⟨e, he, declares⟩ := List.mem_filterMap.mp member
  exact List.mem_filterMap.mpr ⟨e, (built_grows initial).subset he, declares⟩

theorem Sketch.Encodes.closed {d : Sketch} {b : Builder} {es : List Event} (encodes : d.Encodes b)
    (passes : Passes es (Builder.new .late) b) {p : Port} {t : Spot} {a : List (String × String)}
    (edge : .edge p t a ∈ d.strokes) : t.number ≤ d.count := by
  have accounted := passes.accounted (Accounted.new .late)
  have drawn : .edge p.tail (t.name ++ ":" ++ "n") a ∈ b.graph := by
    rw [encodes.graph]
    exact List.mem_map_of_mem edge
  have joined : t.name ∈ (Statement.edge p.tail (t.name ++ ":" ++ "n") a).joins := by
    rw [Statement.joins, endNode_head]
    exact List.mem_cons_of_mem _ List.mem_cons_self
  rw [← encodes.count, ← t.number_name]
  by_cases node : t.name ∈ b.nodes
  · exact accounted.bounded _ node
  · obtain ⟨k, same, known, _⟩ := accounted.numbered _ (mem_dummies.mpr ⟨⟨_, drawn, joined⟩, node⟩)
    rw [same, nodeNumber_append (by decide)]
    exact known

/-- The node is declared while the tree is walked after the events. -/
def DeclaredIn (before : List Event) (t : Tree) (name : String) : Prop :=
  name ∈ (built (before ++ t.walk)).declared ∧ name ∉ (built before).declared

/-- An edge leads from a node declared in the then block of the if statement to one declared in its
else part. -/
def Crosses (g : List Statement) (before : List Event) (h : Head) (us : List Tree) : Prop :=
  ∃ keyword condition block marker other tail head attributes,
    us = [keyword, condition, block, marker, other] ∧ .edge tail head attributes ∈ g ∧
    DeclaredIn (before ++ .enter h us :: Tree.walkAll [keyword, condition]) block (endNode tail) ∧
    DeclaredIn (before ++ .enter h us :: Tree.walkAll [keyword, condition, block, marker]) other
    (endNode head)

theorem passes_over {ts : List Tree} {b : Builder} (plain : ∀ t ∈ ts, t.Plain)
    (phase : b.phase = .none) : Passes (Tree.walkAll ts) b b := by
  have passes : Passes (Tree.walkAll ts ++ []) b b := (passes_plains plain phase).mpr rfl
  rwa [List.append_nil] at passes

section

variable {h : Head} {keyword condition block marker other : Tree} {text : String} {yes : Body}
  {no : Otherwise}

theorem BranchParts.twoSides
    (parts : BranchParts [keyword, condition, block, marker, other] text yes no) :
    (∀ t ∈ [keyword, condition, marker], t.Plain) ∧ Block block yes ∧
      (Fits other.walk → Draws other.walk no.draw) := by
  cases parts with
  | withElse plain first second => exact ⟨plain, first, second.draws⟩
  | withElseIf plain first category parts =>
      refine ⟨plain, first, fun fits d b hb => ?_⟩
      rw [Otherwise.draw_elseIf]
      exact parts.draws_around category (parts.inside fits.node) d b hb

/-- What has been declared when the then block of an if statement has been walked. -/
theorem BranchParts.declaredInThen
    (parts : BranchParts [keyword, condition, block, marker, other] text yes no)
    (category : h.category = .ifStmt) (fits : Fits block.walk) {before : List Event} {b : Builder}
    {e d₁ d₂ : Sketch} (passes : Passes before (Builder.new .late) b) (encodes : e.Encodes b)
    (entered : (e.enterIf text no.branches).bind enterBlock = some d₁)
    (finished : yes.finish d₁ = some d₂) :
    ∃ m, d₂.Encodes m ∧ Passes (before ++ .enter h [keyword, condition, block, marker, other] ::
        Tree.walkAll [keyword, condition, block, marker]) (Builder.new .late) m ∧
      ∀ name, DeclaredIn (before ++ .enter h [keyword, condition, block, marker, other] ::
        Tree.walkAll [keyword, condition]) block name ↔ ∃ s ∈ d₂.nodes, s ∉ d₁.nodes ∧
        s.name = name := by
  obtain ⟨plain, first, _⟩ := parts.twoSides
  obtain ⟨d₀, entered, begun⟩ := Option.bind_eq_some_iff.mp entered
  obtain ⟨b₀, entering, encodes₀⟩ := (parts.enters category).follows encodes entered
  have drew : yes.drawBlock d₀ = some d₂ := Option.bind_eq_some_iff.mpr ⟨d₁, begun, finished⟩
  obtain ⟨m, walked, encodes₂⟩ := (first.draws fits).follows encodes₀ drew
  have start : Passes (before ++ .enter h [keyword, condition, block, marker, other] ::
      Tree.walkAll [keyword, condition]) (Builder.new .late) b₀ :=
    passes_append.mpr ⟨b, passes, passes_append.mpr ⟨b₀, entering,
      passes_over (fun t ht => plain t (by grind)) encodes₀.phase⟩⟩
  refine ⟨m, encodes₂, ?_, fun name => ?_⟩
  · have past : Passes (Tree.walkAll [marker]) m m := passes_over
      (fun t ht => plain t (by grind)) encodes₂.phase
    have rest : Passes (block.walk ++ Tree.walkAll [marker]) b₀ m :=
      passes_append.mpr ⟨m, walked, past⟩
    have whole := passes_append.mpr ⟨b₀, start, rest⟩
    simpa [Tree.walkAll] using whole
  · rw [DeclaredIn, mem_declared_iff encodes₀ encodes₂ start walked, ← enterBlock_nodes begun]

end

theorem Shows.uncrossed {t : Tree} {fs : List Function} (shown : Shows t fs) (fits : Fits t.walk)
    (layered : ∀ f ∈ fs, f.body.Layered) {es before : List Event} {h : Head} {us : List Tree}
    (moment : es <+: t.walk) (stands : before ++ (Tree.node h us).walk <+: t.walk)
    (category : h.category = .ifStmt) : ¬ Crosses (built es).graph before h us := by
  rintro ⟨keyword, condition, block, marker, other, tail, head, attributes, rfl, edge,
    inThen, inElse⟩
  have merged := shown.merged fits
  obtain ⟨d, drew, _⟩ := layers_all fs layered merged (.inl rfl)
  obtain ⟨c, passes, encodes⟩ := (shown.draws fits).follows encodes_new drew
  obtain ⟨b, m, after, first, walked, split⟩ := passes.within stands
  obtain ⟨gs, f, rest, d₀, d₁, s, e, rfl, _, drewFirst, entered, reaches, shownHere, encodes₁⟩ :=
    shown.reaches split (by rw [category]; decide) first
  obtain ⟨_, drew', kept⟩ := kept_of_layered layered merged drewFirst entered reaches
  cases drew.symm.trans drew'
  cases shownHere with
  | fork _ parts =>
      have inner := walked.fits.node
      simp only [Tree.walkAll, Fits.append] at inner
      obtain ⟨d₂, d₃, d₄, entered, finished, drewElse, _, sided⟩ := kept
      obtain ⟨b₃, encodes₃, passes₃, declared⟩ :=
        parts.declaredInThen category inner.2.2.1 first encodes₁ entered finished
      obtain ⟨b₄, walkedElse, encodes₄⟩ :=
        (parts.twoSides.2.2 inner.2.2.2.2.1).follows encodes₃ drewElse
      obtain ⟨x, thenNode, newThen, sameThen⟩ := (declared _).mp inThen
      obtain ⟨y, elseNode, newElse, sameElse⟩ :=
        (mem_declared_iff encodes₃ encodes₄ passes₃ walkedElse).mp inElse
      have drawn := (built_grows moment).subset edge
      rw [passes.built, encodes.graph] at drawn
      obtain ⟨p, u, stroke, rfl, rfl⟩ := edge_mem_statements.mp drawn
      rw [endNode_tail] at sameThen
      rw [endNode_head] at sameElse
      cases Spot.name_injective sameElse
      rw [Spot.name_injective sameThen] at thenNode newThen
      exact sided.apart (fun _ _ _ => encodes₃.closed passes₃) thenNode newThen elseNode
        newElse stroke

end GoFlow
