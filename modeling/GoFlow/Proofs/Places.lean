import GoFlow.Proofs.Drawing
import GoFlow.Proofs.Structured

/-! Places of statements. While a tree that shows a source is walked, the events before an if
statement or a loop have been drawn when it is entered: the sketch is then the one with which the
drawing of the source comes to that statement. -/

namespace GoFlow

open Move Builder Sketch

/-- The builder heeds the events without a mishap, and turns into another one. -/
def Passes (es : List Event) (b c : Builder) : Prop := b.perform (heed es) = (.ok (), c)

/-- What a builder of the late edition has become after the events. -/
def built (es : List Event) : Builder := (Following.go none (Builder.new .late) es).builder

section Passes

variable {es fs : List Event} {b c : Builder} {d : Sketch} {f : Sketch → Option Sketch}

theorem passes_append : Passes (es ++ fs) b c ↔ ∃ m, Passes es b m ∧ Passes fs m c := by
  unfold Passes
  constructor
  · intro done
    rw [heed_append] at done
    obtain ⟨_, m, first, rest⟩ := of_perform_bind done
    exact ⟨m, first, rest⟩
  · rintro ⟨m, first, rest⟩
    rw [heed_append, perform_bind_ok first]
    exact rest

theorem passes_built (done : (Following.go none (Builder.new .late) es).mishap = none) :
    Passes es (Builder.new .late) (built es) := by
  have ok := (go_mishap_eq_none none (Builder.new .late) es).mp done
  rw [Passes, built, (go_heed none (Builder.new .late) es).1, ← ok]

theorem Passes.built (passes : Passes es (Builder.new .late) c) : built es = c := by
  rw [Passes] at passes
  rw [GoFlow.built, (go_heed none (Builder.new .late) es).1, passes]

/-- A node within a walk is walked through after what stands before it. -/
theorem Passes.within {before : List Event} {h : Head} {us : List Tree} (passes : Passes es b c)
    (stands : before ++ (Tree.node h us).walk <+: es) :
    ∃ m m' after, Passes before b m ∧ Passes (Tree.node h us).walk m m' ∧
      es = before ++ Event.enter h us :: after := by
  obtain ⟨after, rfl⟩ := stands
  rw [List.append_assoc, passes_append] at passes
  obtain ⟨m, first, walked⟩ := passes
  obtain ⟨m', walked, _⟩ := passes_append.mp walked
  exact ⟨m, m', _, first, walked, by rw [List.append_assoc]; rfl⟩

theorem Passes.fits (passes : Passes es b c) : Fits es := by
  induction es generalizing b with
  | nil =>
      intro e member
      cases member
  | cons e es ih =>
      obtain ⟨m, first, rest⟩ := passes_append.mp (show Passes ([e] ++ es) b c from passes)
      refine Fits.cons.mpr ⟨?_, ih rest⟩
      unfold Event.Assigns
      split
      · rename_i h left op right
        intro category
        have entering : Hook.onEnter? h.category = some .enterAssignment := by rw [category]; rfl
        rw [Passes, heed_enter entering, heed, bind_pure_unit, Hook.run] at first
        by_contra short
        obtain ⟨_, _, stopped⟩ :=
          (perform_enterAssignment b left op right).2 (Nat.lt_of_not_le short)
        rw [stopped] at first
        cases first
      · trivial

theorem Draws.passes (draws : Draws es f) (encodes : d.Encodes b) (passes : Passes es b c) :
    ∃ d', f d = some d' ∧ d'.Encodes c := by
  have agrees := draws d b encodes
  cases drew : f d with
  | none =>
      rw [drew] at agrees
      obtain ⟨_, _, stopped⟩ := agrees
      cases stopped.symm.trans passes
  | some d' =>
      rw [drew] at agrees
      obtain ⟨c', done, encodes'⟩ := agrees
      cases done.symm.trans passes
      exact ⟨d', rfl, encodes'⟩

theorem Draws.follows {d' : Sketch} (draws : Draws es f) (encodes : d.Encodes b)
    (drew : f d = some d') : ∃ c, Passes es b c ∧ d'.Encodes c := by
  have agrees := draws d b encodes
  rw [drew] at agrees
  exact agrees

theorem passes_plain {t : Tree} (plain : t.Plain) (phase : b.phase = .none) :
    Passes (t.walk ++ es) b c ↔ Passes es b c := by
  rw [Passes, heed_plain plain phase, Passes]

theorem passes_plains {ts : List Tree} (plain : ∀ t ∈ ts, t.Plain) (phase : b.phase = .none) :
    Passes (Tree.walkAll ts ++ es) b c ↔ Passes es b c := by
  rw [Passes, heed_plains plain phase, Passes]

theorem passes_enter {h : Head} {us : List Tree} (hook : Hook.onEnter? h.category = none) :
    Passes (.enter h us :: es) b c ↔ Passes es b c := by
  rw [Passes, heed_enter_none hook, Passes]

theorem passes_leave {h : Head} {us : List Tree} (hook : Hook.onLeave? h.category = none) :
    Passes (.leave h us :: es) b c ↔ Passes es b c := by
  rw [Passes, heed_leave_none hook, Passes]

end Passes

theorem split_append {es fs before after : List Event} {e : Event}
    (split : es ++ fs = before ++ e :: after) :
    (∃ rest, es = before ++ e :: rest) ∨ ∃ later, before = es ++ later ∧
      fs = later ++ e :: after := by
  rcases List.append_eq_append_iff.mp split with ⟨later, rfl, rest⟩ | ⟨rest, rfl, same⟩
  · exact .inr ⟨later, rfl, rest⟩
  · cases rest with
    | nil => exact .inr ⟨[], by simp, by simpa using same.symm⟩
    | cons x rest =>
        cases same
        exact .inl ⟨rest, rfl⟩

theorem split_node {h k : Head} {us vs : List Tree} {before after : List Event}
    (split : (Tree.node h us).walk = before ++ Event.enter k vs :: after) :
    (before = [] ∧ k = h ∧ vs = us) ∨
      ∃ inner rest, before = .enter h us :: inner ∧
      Tree.walkAll us = inner ++ Event.enter k vs :: rest := by
  rw [Tree.walk] at split
  cases before with
  | nil =>
      cases split
      exact .inl ⟨rfl, rfl, rfl⟩
  | cons e inner =>
      obtain ⟨rfl, children⟩ := List.cons.inj split
      rcases split_append children with ⟨rest, inside⟩ | ⟨later, _, last⟩
      · exact .inr ⟨inner, rest, rfl, inside⟩
      · cases later with
        | nil => cases last
        | cons _ later => cases later <;> cases last

/-- An if statement or a loop. -/
inductive Compound where
  | fork (condition : String) (yes : Body) (no : Otherwise)
  | loop (condition : String) (body : Body)

namespace Compound

def categories : List Category := [.ifStmt, .forStmt]

def Merged : Compound → Prop
  | fork _ yes no => yes.Merged ∧ no.Merged
  | loop _ body => body.Merged

inductive Shown : Compound → Head → List Tree → Prop
  | fork {h : Head} {us : List Tree} {condition : String} {yes : Body} {no : Otherwise}
      (category : h.category = .ifStmt) (parts : BranchParts us condition yes no) :
      Shown (.fork condition yes no) h us
  | loop {h : Head} {keyword condition block : Tree} {body : Body}
      (category : h.category = .forStmt)
      (plain : ∀ t ∈ [keyword, condition], t.Plain) (inside : Block block body) :
      Shown (.loop condition.text body) h [keyword, condition, block]

theorem Shown.merged {s : Compound} {h : Head} {us : List Tree} (shown : s.Shown h us)
    (fits : Fits (Tree.walkAll us)) : s.Merged := by
  cases shown with
  | fork _ parts => exact parts.merged fits
  | loop _ _ inside =>
      simp only [Tree.walkAll, Fits.append] at fits
      exact inside.merged fits.2.2.1

end Compound

mutual

/-- Drawing the body from a sketch comes to the statement, with another sketch. In what has been
drawn before, every run has a text. -/
inductive Body.Reaches : Body → Sketch → Compound → Sketch → Prop
  | run {text : String} {rest : Body} {d e : Sketch} {s : Compound}
      (later : rest.Reaches (d.hold text) s e) : Body.Reaches (.run text rest) d s e
  | branch {condition : String} {yes rest : Body} {no : Otherwise} {d e : Sketch} {s : Compound}
      (inside : (Compound.fork condition yes no).Reaches d s e) :
      Body.Reaches (.branch condition yes no rest) d s e
  | afterBranch {condition : String} {yes rest : Body} {no : Otherwise} {d d' e : Sketch}
      {s : Compound} (merged : yes.Merged ∧ no.Merged) (drew : drawIf condition yes no d = some d')
      (later : rest.Reaches d' s e) : Body.Reaches (.branch condition yes no rest) d s e
  | loop {condition : String} {body rest : Body} {d e : Sketch} {s : Compound}
      (inside : (Compound.loop condition body).Reaches d s e) :
      Body.Reaches (.loop condition body rest) d s e
  | afterLoop {condition : String} {body rest : Body} {d d' e : Sketch} {s : Compound}
      (merged : body.Merged) (drew : drawFor condition body d = some d')
      (later : rest.Reaches d' s e) : Body.Reaches (.loop condition body rest) d s e

/-- Drawing a statement comes to another one in it, or to itself. -/
inductive Compound.Reaches : Compound → Sketch → Compound → Sketch → Prop
  | here (s : Compound) (d : Sketch) : Compound.Reaches s d s d
  | yes {condition : String} {yes : Body} {no : Otherwise} {d d₁ e : Sketch} {s : Compound}
      (entered : (d.enterIf condition no.branches).bind enterBlock = some d₁)
      (inside : yes.Reaches d₁ s e) : Compound.Reaches (.fork condition yes no) d s e
  | no {condition : String} {yes no : Body} {d d₁ d₂ d₃ e : Sketch} {s : Compound}
      (merged : yes.Merged)
      (entered : (d.enterIf condition .thenElse).bind enterBlock = some d₁)
      (finished : yes.finish d₁ = some d₂)
      (begun : d₂.enterBlock = some d₃) (inside : no.Reaches d₃ s e) :
      Compound.Reaches (.fork condition yes (.block no)) d s e
  | elseIf {condition condition' : String} {yes yes' : Body} {no : Otherwise} {d d₁ d₂ e : Sketch}
      {s : Compound} (merged : yes.Merged)
      (entered : (d.enterIf condition .thenElse).bind enterBlock = some d₁)
      (finished : yes.finish d₁ = some d₂)
      (inside : (Compound.fork condition' yes' no).Reaches d₂ s e) :
      Compound.Reaches (.fork condition yes (.elseIf condition' yes' no)) d s e
  | body {condition : String} {body : Body} {d d₁ e : Sketch} {s : Compound}
      (entered : (d.enterFor condition).bind enterBlock = some d₁) (inside : body.Reaches d₁ s e) :
      Compound.Reaches (.loop condition body) d s e

end

theorem Body.Reaches.prepend {line : String} {b : Body} {d e : Sketch} {s : Compound}
    (later : b.Reaches (d.hold line) s e) : (b.prepend line).Reaches d s e := by
  cases b with
  | run text rest =>
      cases later with
      | run later =>
          have same : (d.hold line).hold text = d.hold (line ++ text) := by
            simp only [hold, String.append_assoc]
          rw [same] at later
          exact .run later
  | done => exact .run later
  | branch => exact .run later
  | loop => exact .run later

/-- No statement is entered where statements may not stand. -/
theorem Tree.Plain.absent {t : Tree} (plain : t.Plain) {h : Head}
    (compound : h.category ∈ Compound.categories) (vs : List Tree) : .enter h vs ∉ t.walk := by
  intro member
  have holders : ∀ c ∈ Compound.categories, c ∈ Category.holders := by decide
  exact plain.events member h.category rfl (holders _ compound)

theorem split_wrapper {h k : Head} (wrapper : h.category ∈ Category.wrappers)
    {us ts vs : List Tree} {before after : List Event}
    (split : Tree.walkAll (.node h us :: ts) = before ++ Event.enter k vs :: after)
    (other : k.category ≠ h.category) :
    ∃ inside rest, heed before = heed inside ∧
      Tree.walkAll (us ++ ts) = inside ++ Event.enter k vs :: rest := by
  have hooks : Hook.onEnter? h.category = none ∧ Hook.onLeave? h.category = none := by
    revert wrapper
    cases h.category <;> decide
  rw [Tree.walkAll] at split
  rcases split_append split with ⟨_, first⟩ | ⟨later, rfl, beyond⟩
  · rcases split_node first with ⟨_, rfl, _⟩ | ⟨inner, rest, rfl, deeper⟩
    · exact absurd rfl other
    · refine ⟨inner, rest ++ Tree.walkAll ts, heed_enter_none hooks.1 us inner, ?_⟩
      rw [walkAll_append, deeper, List.append_assoc, List.cons_append]
  · refine ⟨Tree.walkAll us ++ later, after, ?_, ?_⟩
    · rw [Tree.walk, List.cons_append, heed_enter_none hooks.1, List.append_assoc, heed_append,
        List.singleton_append, heed_leave_none hooks.2, heed_append]
    · rw [walkAll_append, beyond, List.append_assoc]

theorem split_children (ps us : List Tree) (plain : ∀ t ∈ ps, t.Plain) {before after : List Event}
    {h : Head} {vs : List Tree} (split : Tree.walkAll (ps ++ us) = before ++ .enter h vs :: after)
    (compound : h.category ∈ Compound.categories) {b c : Builder} (phase : b.phase = .none)
    (passes : Passes before b c) :
    ∃ later, Passes later b c ∧ Tree.walkAll us = later ++ .enter h vs :: after := by
  rw [walkAll_append] at split
  rcases split_append split with ⟨_, inside⟩ | ⟨later, rfl, beyond⟩
  · obtain ⟨t, member, entered⟩ :=
      Tree.mem_walkAll.mp (inside ▸ List.mem_append_right before List.mem_cons_self)
    exact absurd entered ((plain t member).absent compound vs)
  · exact ⟨later, (passes_plains plain phase).mp passes, beyond⟩

/-- A statement in an if statement with an else stands in the then block, or after it. -/
theorem Block.split_else {keyword condition block marker other : Tree} {yes : Body}
    (first : Block block yes) (plain : ∀ t ∈ [keyword, condition, marker], t.Plain)
    {before after : List Event} {h : Head} {vs : List Tree}
    (split : Tree.walkAll [keyword, condition, block, marker, other] =
      before ++ Event.enter h vs :: after)
    (compound : h.category ∈ Compound.categories) {d : Sketch} {b c : Builder}
    (encodes : d.Encodes b) (passes : Passes before b c) :
    (∃ inner rest, block.walk = inner ++ Event.enter h vs :: rest ∧ Passes inner b c) ∨
      ∃ d₁ d₂ later m, yes.Merged ∧ d.enterBlock = some d₁ ∧ yes.finish d₁ = some d₂ ∧
      d₂.Encodes m ∧
        Passes later m c ∧ other.walk = later ++ .enter h vs :: after := by
  obtain ⟨inner, passes, split⟩ := split_children [keyword, condition] [block, marker, other]
    (fun t ht => plain t (by grind)) split compound encodes.phase passes
  rw [Tree.walkAll] at split
  rcases split_append split with ⟨rest, inside⟩ | ⟨later, rfl, beyond⟩
  · exact .inl ⟨inner, rest, inside, passes⟩
  · obtain ⟨m, walked, passes⟩ := passes_append.mp passes
    obtain ⟨d₂, drew, encodes₂⟩ := (first.draws walked.fits).passes encodes walked
    obtain ⟨d₁, begun, finished⟩ := Option.bind_eq_some_iff.mp drew
    obtain ⟨later, passes, split⟩ := split_children [marker] [other]
      (fun t ht => plain t (by grind)) beyond compound encodes₂.phase passes
    rw [Tree.walkAll, Tree.walkAll, List.append_nil] at split
    exact .inr ⟨d₁, d₂, later, m, first.merged walked.fits, begun, finished, encodes₂,
      passes, split⟩

mutual

/-- The events before a statement among others have been drawn when it is entered. -/
theorem Statements.reaches {ts : List Tree} {body : Body} (shown : Statements ts body)
    {before after : List Event} {h : Head} {vs : List Tree}
    (split : Tree.walkAll ts = before ++ .enter h vs :: after)
    (compound : h.category ∈ Compound.categories) {d : Sketch} {b c : Builder}
    (encodes : d.Encodes b) (passes : Passes before b c) :
    ∃ s e, body.Reaches d s e ∧ s.Shown h vs ∧ e.Encodes c :=
  match shown with
  | .none => by
      rw [Tree.walkAll] at split
      cases before <;> cases split
  | .plain plain rest => by
      rw [Tree.walkAll] at split
      rcases split_append split with ⟨_, inside⟩ | ⟨later, rfl, beyond⟩
      · exact absurd (by rw [inside]; simp) (plain.absent compound vs)
      · exact rest.reaches beyond compound encodes ((passes_plain plain encodes.phase).mp passes)
  | .within wrapper inner => by
      have other : h.category ∉ Category.wrappers := by
        revert compound
        have apart : ∀ c ∈ Compound.categories, c ∉ Category.wrappers := by decide
        exact apart _
      obtain ⟨inside, rest, same, split⟩ :=
        split_wrapper wrapper split fun same => other (same ▸ wrapper)
      refine inner.reaches split compound encodes ?_
      rw [Passes, ← same]
      exact passes
  | .assignment category plain value rest => by
      rw [Tree.walkAll] at split
      rcases split_append split with ⟨_, inside⟩ | ⟨later, rfl, beyond⟩
      · rcases split_node inside with ⟨_, rfl, _⟩ | ⟨inner, rest, rfl, deeper⟩
        · rw [category] at compound
          exact absurd compound (by decide)
        · obtain ⟨t, member, entered⟩ := Tree.mem_walkAll.mp
            (deeper ▸ List.mem_append_right inner List.mem_cons_self)
          exact absurd entered ((plain t member).absent compound vs)
      · obtain ⟨m, first, passes⟩ := passes_append.mp passes
        obtain ⟨d₁, held, encodes₁⟩ :=
          (draws_assignment category plain first.fits).passes encodes first
        cases held
        obtain ⟨s, e, reaches, rest⟩ := rest.reaches beyond compound encodes₁ passes
        exact ⟨s, e, reaches.prepend, rest⟩
  | .branch category parts following => by
      rw [Tree.walkAll] at split
      rcases split_append split with ⟨_, inside⟩ | ⟨later, rfl, beyond⟩
      · rcases split_node inside with ⟨rfl, rfl, rfl⟩ | ⟨inner, rest, rfl, deeper⟩
        · cases passes
          exact ⟨_, d, .branch (.here _ d), .fork category parts, encodes⟩
        · obtain ⟨m, entering, passes⟩ :=
            passes_append.mp (show Passes ([_] ++ inner) b c from passes)
          obtain ⟨d₁, entered, encodes₁⟩ := (parts.enters category).passes encodes entering
          obtain ⟨s, e, reaches, rest⟩ := parts.reaches deeper compound entered encodes₁ passes
          exact ⟨s, e, .branch reaches, rest⟩
      · obtain ⟨m, first, passes⟩ := passes_append.mp passes
        have draws := parts.draws_around category (parts.inside first.fits.node)
        obtain ⟨d₁, drew, encodes₁⟩ := draws.passes encodes first
        obtain ⟨s, e, reaches, rest⟩ := following.reaches beyond compound encodes₁ passes
        exact ⟨s, e, .afterBranch (parts.merged first.fits.node) drew reaches, rest⟩
  | .loop category plain inside following => by
      rw [Tree.walkAll] at split
      rcases split_append split with ⟨_, within⟩ | ⟨later, rfl, beyond⟩
      · rcases split_node within with ⟨rfl, rfl, rfl⟩ | ⟨inner, rest, rfl, deeper⟩
        · cases passes
          exact ⟨_, d, .loop (.here _ d), .loop category plain inside, encodes⟩
        · obtain ⟨m, entering, passes⟩ :=
            passes_append.mp (show Passes ([_] ++ inner) b c from passes)
          obtain ⟨d₁, entered, encodes₁⟩ := (enters_for category).passes encodes entering
          obtain ⟨before', passes, within⟩ :=
            split_children [_, _] [_] plain deeper compound encodes₁.phase passes
          rw [Tree.walkAll, Tree.walkAll, List.append_nil] at within
          obtain ⟨d₂, s, e, begun, reaches, rest⟩ := inside.reaches within compound encodes₁ passes
          exact ⟨s, e, .loop (.body (by rw [entered]; exact begun) reaches), rest⟩
      · obtain ⟨m, first, passes⟩ := passes_append.mp passes
        have fits := first.fits.node
        simp only [Tree.walkAll, Fits.append] at fits
        obtain ⟨d₁, drew, encodes₁⟩ :=
          (draws_for category plain (inside.draws fits.2.2.1)).passes encodes first
        obtain ⟨s, e, reaches, rest⟩ := following.reaches beyond compound encodes₁ passes
        exact ⟨s, e, .afterLoop (inside.merged fits.2.2.1) drew reaches, rest⟩

theorem Block.reaches {t : Tree} {body : Body} (shown : Block t body) {before after : List Event}
    {h : Head} {vs : List Tree} (split : t.walk = before ++ .enter h vs :: after)
    (compound : h.category ∈ Compound.categories) {d : Sketch} {b c : Builder}
    (encodes : d.Encodes b) (passes : Passes before b c) :
    ∃ d₁ s e, d.enterBlock = some d₁ ∧ body.Reaches d₁ s e ∧ s.Shown h vs ∧ e.Encodes c :=
  match shown with
  | .intro category statements => by
      rcases split_node split with ⟨_, rfl, _⟩ | ⟨inner, rest, rfl, deeper⟩
      · rw [category] at compound
        exact absurd compound (by decide)
      · obtain ⟨m, entering, passes⟩ :=
          passes_append.mp (show Passes ([_] ++ inner) b c from passes)
        obtain ⟨d₁, begun, encodes₁⟩ := (enters_block category).passes encodes entering
        obtain ⟨s, e, rest⟩ := statements.reaches deeper compound encodes₁ passes
        exact ⟨d₁, s, e, begun, rest⟩

theorem BranchParts.reaches {us : List Tree} {condition : String} {yes : Body} {no : Otherwise}
    (shown : BranchParts us condition yes no) {before after : List Event} {h : Head}
    {vs : List Tree} (split : Tree.walkAll us = before ++ .enter h vs :: after)
    (compound : h.category ∈ Compound.categories) {d₀ d : Sketch}
    (entered : d₀.enterIf condition no.branches = some d) {b c : Builder} (encodes : d.Encodes b)
    (passes : Passes before b c) :
    ∃ s e, (Compound.fork condition yes no).Reaches d₀ s e ∧ s.Shown h vs ∧ e.Encodes c :=
  match shown with
  | .bare plain first => by
      obtain ⟨before', passes, split⟩ :=
        split_children [_, _] [_] plain split compound encodes.phase passes
      rw [Tree.walkAll, Tree.walkAll, List.append_nil] at split
      obtain ⟨d₂, s, e, begun, reaches, rest⟩ := first.reaches split compound encodes passes
      exact ⟨s, e, .yes (by rw [entered]; exact begun) reaches, rest⟩
  | .withElse plain first second => by
      rcases first.split_else plain split compound encodes passes with
        ⟨inner, rest, inside, passes⟩ |
        ⟨d₁, d₂, later, m, merged, begun, finished, encodes₂, passes, beyond⟩
      · obtain ⟨d₁, s, e, begun, reaches, rest⟩ := first.reaches inside compound encodes passes
        exact ⟨s, e, .yes (by rw [entered]; exact begun) reaches, rest⟩
      · obtain ⟨d₃, s, e, begun', reaches, rest⟩ := second.reaches beyond compound encodes₂ passes
        have both : (d₀.enterIf _ .thenElse).bind enterBlock = some d₁ :=
          Option.bind_eq_some_iff.mpr ⟨d, entered, begun⟩
        exact ⟨s, e, .no merged both finished begun' reaches, rest⟩
  | .withElseIf plain first category parts => by
      rcases first.split_else plain split compound encodes passes with
        ⟨inner, rest, inside, passes⟩ |
        ⟨d₁, d₂, later, m, merged, begun, finished, encodes₂, passes, beyond⟩
      · obtain ⟨d₁, s, e, begun, reaches, rest⟩ := first.reaches inside compound encodes passes
        exact ⟨s, e, .yes (by rw [entered]; exact begun) reaches, rest⟩
      · have both : (d₀.enterIf _ .thenElse).bind enterBlock = some d₁ :=
          Option.bind_eq_some_iff.mpr ⟨d, entered, begun⟩
        rcases split_node beyond with ⟨rfl, rfl, rfl⟩ | ⟨inner, rest, rfl, deeper⟩
        · cases passes
          exact ⟨_, d₂, .elseIf merged both finished (.here _ d₂), .fork category parts, encodes₂⟩
        · obtain ⟨m', entering, passes⟩ :=
            passes_append.mp (show Passes ([_] ++ inner) m c from passes)
          obtain ⟨d₃, entered', encodes₃⟩ := (parts.enters category).passes encodes₂ entering
          obtain ⟨s, e, reaches, rest⟩ := parts.reaches deeper compound entered' encodes₃ passes
          exact ⟨s, e, .elseIf merged both finished reaches, rest⟩

end

/-- The statement stands in a function; those before the function have been drawn. -/
theorem Functions.reaches {ts : List Tree} {fs : List Function} (shown : Functions ts fs)
    {before after : List Event} {h : Head} {vs : List Tree}
    (split : Tree.walkAll ts = before ++ Event.enter h vs :: after)
    (compound : h.category ∈ Compound.categories) {d : Sketch} {b c : Builder}
    (encodes : d.Encodes b) (passes : Passes before b c) :
    ∃ (gs : List Function) (f : Function) (rest : List Function) (d₁ d₂ : Sketch) (s : Compound)
      (e : Sketch),
      fs = gs ++ f :: rest ∧ (∀ g ∈ gs, g.body.Merged) ∧ drawAll gs d = some d₁ ∧
      (d₁.enterFunction f.name).bind enterBlock = some d₂ ∧ f.body.Reaches d₂ s e ∧ s.Shown h vs ∧
      e.Encodes c := by
  induction shown generalizing before d b with
  | none =>
      rw [Tree.walkAll] at split
      cases before <;> cases split
  | plain plain _ ih =>
      rw [Tree.walkAll] at split
      rcases split_append split with ⟨_, inside⟩ | ⟨later, rfl, beyond⟩
      · exact absurd (by rw [inside]; simp) (plain.absent compound vs)
      · exact ih beyond encodes ((passes_plain plain encodes.phase).mp passes)
  | @declares t f ts fs first _ ih =>
      rw [Tree.walkAll] at split
      rcases split_append split with ⟨_, inside⟩ | ⟨later, rfl, beyond⟩
      · obtain @⟨k, keyword, name, block, us, body, category, plain, within⟩ := first
        rcases split_node inside with ⟨_, rfl, _⟩ | ⟨inner, _, rfl, deeper⟩
        · rw [category] at compound
          exact absurd compound (by decide)
        · obtain ⟨m, entering, passes⟩ :=
            passes_append.mp (show Passes ([_] ++ inner) b c from passes)
          obtain ⟨d₁, entered, encodes₁⟩ := (enters_function category).passes encodes entering
          obtain ⟨later, passes, split⟩ :=
            split_children _ [block] plain deeper compound encodes₁.phase passes
          rw [Tree.walkAll, Tree.walkAll, List.append_nil] at split
          obtain ⟨d₂, s, e, begun, reaches⟩ := within.reaches split compound encodes₁ passes
          exact ⟨[], _, fs, d, d₂, s, e, rfl, nofun, rfl,
            Option.bind_eq_some_iff.mpr ⟨d₁, entered, begun⟩, reaches⟩
      · obtain ⟨m, walked, passes⟩ := passes_append.mp passes
        obtain ⟨d₁, drew, encodes₁⟩ := (first.draws walked.fits).passes encodes walked
        obtain ⟨gs, g, hs, d₂, d₃, s, e, rfl, merged, drewRest, reaches⟩ :=
          ih beyond encodes₁ passes
        exact ⟨f :: gs, g, hs, d₂, d₃, s, e, rfl,
          List.forall_mem_cons.mpr ⟨first.merged walked.fits, merged⟩,
          Option.bind_eq_some_iff.mpr ⟨d₁, drew, drewRest⟩, reaches⟩

theorem Shows.reaches {t : Tree} {fs : List Function} (shown : Shows t fs)
    {before after : List Event} {h : Head} {vs : List Tree}
    (split : t.walk = before ++ Event.enter h vs :: after)
    (compound : h.category ∈ Compound.categories) {c : Builder}
    (passes : Passes before (Builder.new .late) c) :
    ∃ (gs : List Function) (f : Function) (rest : List Function) (d₁ d₂ : Sketch) (s : Compound)
      (e : Sketch),
      fs = gs ++ f :: rest ∧ (∀ g ∈ gs, g.body.Merged) ∧ drawAll gs {} = some d₁ ∧
      (d₁.enterFunction f.name).bind enterBlock = some d₂ ∧ f.body.Reaches d₂ s e ∧ s.Shown h vs ∧
      e.Encodes c := by
  obtain ⟨category, functions⟩ := shown
  rcases split_node split with ⟨_, rfl, _⟩ | ⟨inner, _, rfl, deeper⟩
  · rw [category] at compound
    exact absurd compound (by decide)
  · have entering : Hook.onEnter? _ = none := congrArg Hook.onEnter? category
    exact functions.reaches deeper compound encodes_new ((passes_enter entering).mp passes)

mutual

/-- Where a node is entered in a walk, the walk goes on through that node. -/
theorem Tree.walk_node (t : Tree) {before after : List Event} {h : Head} {us : List Tree}
    (split : t.walk = before ++ .enter h us :: after) :
    before ++ (Tree.node h us).walk <+: t.walk :=
  match t with
  | .leaf _ => by
      rw [Tree.walk] at split
      rcases before with _ | ⟨_, _ | _⟩ <;> cases split
  | .node k vs => by
      rcases split_node split with ⟨rfl, rfl, rfl⟩ | ⟨inner, rest, rfl, deeper⟩
      · exact List.prefix_rfl
      · rw [List.cons_append, Tree.walk]
        exact List.cons_prefix_cons.mpr
          ⟨rfl, (Tree.walkAll_node vs deeper).trans (List.prefix_append _ _)⟩

theorem Tree.walkAll_node (ts : List Tree) {before after : List Event} {h : Head} {us : List Tree}
    (split : Tree.walkAll ts = before ++ .enter h us :: after) :
    before ++ (Tree.node h us).walk <+: Tree.walkAll ts :=
  match ts with
  | [] => by
      rw [Tree.walkAll] at split
      cases before <;> cases split
  | t :: ts => by
      rw [Tree.walkAll] at split ⊢
      rcases split_append split with ⟨_, inside⟩ | ⟨later, rfl, beyond⟩
      · exact (t.walk_node inside).trans (List.prefix_append _ _)
      · rw [List.append_assoc]
        exact (List.prefix_append_right_inj _).mpr (Tree.walkAll_node ts beyond)

end

/-- The statement is entered somewhere in the walk, after events that have been drawn. -/
def Compound.Met (s : Compound) (e : Sketch) (b : Builder) (es : List Event) : Prop :=
  ∃ before h vs after c, es = before ++ .enter h vs :: after ∧ s.Shown h vs ∧ Passes before b c ∧
    e.Encodes c

namespace Compound.Met

variable {s : Compound} {d d₁ e : Sketch} {b : Builder} {es fs : List Event}
  {f : Sketch → Option Sketch}

theorem append (met : s.Met e b es) (fs : List Event) : s.Met e b (es ++ fs) := by
  obtain ⟨before, h, vs, after, c, rfl, rest⟩ := met
  exact ⟨before, h, vs, after ++ fs, c, by rw [List.append_assoc, List.cons_append], rest⟩

theorem after (draws : Draws es f) (encodes : d.Encodes b) (drew : f d = some d₁)
    (met : ∀ m, d₁.Encodes m → s.Met e m fs) : s.Met e b (es ++ fs) := by
  obtain ⟨m, first, encodes₁⟩ := draws.follows encodes drew
  obtain ⟨before, h, vs, after, c, rfl, shown, passes, encodes₂⟩ := met m encodes₁
  exact ⟨es ++ before, h, vs, after, c, by rw [List.append_assoc], shown,
    passes_append.mpr ⟨m, first, passes⟩, encodes₂⟩

theorem node {h : Head} {us : List Tree} (draws : Draws [.enter h us] f) (encodes : d.Encodes b)
    (drew : f d = some d₁) (met : ∀ m, d₁.Encodes m → s.Met e m (Tree.walkAll us)) :
    s.Met e b (Tree.node h us).walk := by
  rw [Tree.walk]
  exact after draws encodes drew fun m encodes₁ => (met m encodes₁).append _

theorem after_plain (ps : List Tree) {us : List Tree} (plain : ∀ t ∈ ps, t.Plain)
    (encodes : d.Encodes b) (met : s.Met e b (Tree.walkAll us)) :
    s.Met e b (Tree.walkAll (ps ++ us)) := by
  obtain ⟨before, h, vs, after, c, split, shown, passes, encodes'⟩ := met
  refine ⟨Tree.walkAll ps ++ before, h, vs, after, c, ?_, shown,
    (passes_plains plain encodes.phase).mpr passes, encodes'⟩
  rw [walkAll_append, split, List.append_assoc]

theorem in_block {keyword condition block : Tree} {us : List Tree}
    (plain : ∀ t ∈ [keyword, condition], t.Plain) (encodes : d.Encodes b)
    (met : s.Met e b block.walk) : s.Met e b (Tree.walkAll (keyword :: condition :: block :: us)) :=
  after_plain [keyword, condition] plain encodes (met.append _)

theorem within {h : Head} (wrapper : h.category ∈ Category.wrappers) {us ts : List Tree}
    (met : s.Met e b (Tree.walkAll (us ++ ts))) : s.Met e b (Tree.walkAll (.node h us :: ts)) := by
  have hooks : Hook.onEnter? h.category = none ∧ Hook.onLeave? h.category = none := by
    revert wrapper
    cases h.category <;> decide
  obtain ⟨before, k, vs, after, c, split, shown, passes, encodes⟩ := met
  rw [walkAll_append] at split
  rw [Tree.walkAll, Tree.walk]
  rcases split_append split with ⟨rest, inside⟩ | ⟨later, rfl, beyond⟩
  · refine ⟨.enter h us :: before, k, vs, rest ++ [.leave h us] ++ Tree.walkAll ts, c, ?_, shown,
      (passes_enter hooks.1).mpr passes, encodes⟩
    rw [inside]
    simp only [List.cons_append, List.append_assoc]
  · obtain ⟨m, first, passes⟩ := passes_append.mp passes
    refine ⟨.enter h us :: (Tree.walkAll us ++ .leave h us :: later), k, vs, after, c, ?_, shown,
      (passes_enter hooks.1).mpr (passes_append.mpr ⟨m, first, (passes_leave hooks.2).mpr passes⟩),
      encodes⟩
    rw [beyond]
    simp only [List.cons_append, List.append_assoc, List.nil_append]

end Compound.Met

theorem Block.met_else {keyword condition block marker other : Tree} {yes : Body}
    (first : Block block yes) (plain : ∀ t ∈ [keyword, condition, marker], t.Plain)
    (fits : Fits block.walk) {d d₁ d₂ e : Sketch} {b : Builder} (encodes : d.Encodes b)
    (begun : d.enterBlock = some d₁) (finished : yes.finish d₁ = some d₂) {s : Compound}
    (met : ∀ m, d₂.Encodes m → s.Met e m other.walk) :
    s.Met e b (Tree.walkAll [keyword, condition, block, marker, other]) := by
  have drew : yes.drawBlock d = some d₂ := Option.bind_eq_some_iff.mpr ⟨d₁, begun, finished⟩
  refine .after_plain [keyword, condition] (fun t ht => plain t (by grind)) encodes ?_
  refine .after (first.draws fits) encodes drew fun m encodes₂ => ?_
  exact .after_plain [marker] (fun t ht => plain t (by grind)) encodes₂ ((met m encodes₂).append _)

theorem Body.Reaches.of_prepend {line : String} {b : Body} {d e : Sketch} {s : Compound}
    (reaches : (b.prepend line).Reaches d s e) : b.Reaches (d.hold line) s e := by
  cases b with
  | run text rest =>
      cases reaches with
      | run later =>
          have same : (d.hold line).hold text = d.hold (line ++ text) := by
            simp only [hold, String.append_assoc]
          rw [← same] at later
          exact .run later
  | done => cases reaches with | run later => exact later
  | branch => cases reaches with | run later => exact later
  | loop => cases reaches with | run later => exact later

mutual

theorem Statements.met {ts : List Tree} {body : Body} (shown : Statements ts body)
    (fits : Fits (Tree.walkAll ts)) {d e : Sketch} {s : Compound} (reaches : body.Reaches d s e)
    {b : Builder} (encodes : d.Encodes b) :
    s.Met e b (Tree.walkAll ts) :=
  match shown with
  | .none => by cases reaches
  | .plain plain rest => by
      rw [Tree.walkAll, Fits.append] at fits
      exact .after_plain [_] (List.forall_mem_singleton.mpr plain) encodes
        (rest.met fits.2 reaches encodes)
  | .within wrapper inner => by
      rw [Tree.walkAll, Fits.append] at fits
      refine .within wrapper (inner.met ?_ reaches encodes)
      rw [walkAll_append, Fits.append]
      exact ⟨fits.1.node, fits.2⟩
  | .assignment category plain value rest => by
      rw [Tree.walkAll, Fits.append] at fits
      rw [Tree.walkAll]
      exact .after (draws_assignment category plain fits.1) encodes rfl fun m encodes₁ =>
        rest.met fits.2 reaches.of_prepend encodes₁
  | .branch category parts following => by
      rw [Tree.walkAll, Fits.append] at fits
      rw [Tree.walkAll]
      cases reaches with
      | branch inside => exact (parts.met fits.1.node category inside encodes).append _
      | afterBranch _ drew later =>
          exact .after (parts.draws_around category (parts.inside fits.1.node)) encodes drew
            fun m encodes₁ => following.met fits.2 later encodes₁
  | .loop category plain inside following => by
      rw [Tree.walkAll, Fits.append] at fits
      have inner := fits.1.node
      simp only [Tree.walkAll, Fits.append] at inner
      rw [Tree.walkAll]
      cases reaches with
      | loop within =>
          refine Compound.Met.append ?_ _
          cases within with
          | here => exact ⟨[], _, _, _, b, rfl, .loop category plain inside, rfl, encodes⟩
          | body entered within =>
              obtain ⟨d₁, entered, begun⟩ := Option.bind_eq_some_iff.mp entered
              exact .node (enters_for category) encodes entered fun m encodes₁ =>
                .in_block plain encodes₁ (inside.met inner.2.2.1 begun within encodes₁)
      | afterLoop _ drew later =>
          exact .after (draws_for category plain (inside.draws inner.2.2.1)) encodes drew
            fun m encodes₁ => following.met fits.2 later encodes₁

theorem Block.met {t : Tree} {body : Body} (shown : Block t body) (fits : Fits t.walk)
    {d d₁ e : Sketch} {s : Compound} (begun : d.enterBlock = some d₁)
    (reaches : body.Reaches d₁ s e) {b : Builder} (encodes : d.Encodes b) : s.Met e b t.walk :=
  match shown with
  | .intro category statements =>
      .node (enters_block category) encodes begun fun _ encodes₁ =>
        statements.met fits.node reaches encodes₁

theorem BranchParts.met {us : List Tree} {condition : String} {yes : Body} {no : Otherwise}
    (shown : BranchParts us condition yes no) (fits : Fits (Tree.walkAll us)) {h : Head}
    (category : h.category = .ifStmt) {d e : Sketch} {s : Compound}
    (reaches : (Compound.fork condition yes no).Reaches d s e) {b : Builder}
    (encodes : d.Encodes b) : s.Met e b (Tree.node h us).walk :=
  match shown with
  | .bare plain first => by
      simp only [Tree.walkAll, Fits.append] at fits
      cases reaches with
      | here => exact ⟨[], _, _, _, b, rfl, .fork category (.bare plain first), rfl, encodes⟩
      | yes entered inside =>
          obtain ⟨d₁, entered, begun⟩ := Option.bind_eq_some_iff.mp entered
          exact .node ((BranchParts.bare plain first).enters category) encodes entered
              fun m encodes₁ =>
            .in_block plain encodes₁ (first.met fits.2.2.1 begun inside encodes₁)
  | .withElse plain first second => by
      have parts := BranchParts.withElse plain first second
      simp only [Tree.walkAll, Fits.append] at fits
      cases reaches with
      | here => exact ⟨[], _, _, _, b, rfl, .fork category parts, rfl, encodes⟩
      | yes entered inside =>
          obtain ⟨d₁, entered, begun⟩ := Option.bind_eq_some_iff.mp entered
          exact .node (parts.enters category) encodes entered fun m encodes₁ =>
            .in_block (fun t ht => plain t (by grind)) encodes₁
              (first.met fits.2.2.1 begun inside encodes₁)
      | no _ entered finished begun inside =>
          obtain ⟨d₁, entered, begun₁⟩ := Option.bind_eq_some_iff.mp entered
          exact .node (parts.enters category) encodes entered fun m encodes₁ =>
            first.met_else plain fits.2.2.1 encodes₁ begun₁ finished fun m encodes₂ =>
              second.met fits.2.2.2.2.1 begun inside encodes₂
  | .withElseIf plain first category' inner => by
      have parts := BranchParts.withElseIf plain first category' inner
      simp only [Tree.walkAll, Fits.append] at fits
      cases reaches with
      | here => exact ⟨[], _, _, _, b, rfl, .fork category parts, rfl, encodes⟩
      | yes entered inside =>
          obtain ⟨d₁, entered, begun⟩ := Option.bind_eq_some_iff.mp entered
          exact .node (parts.enters category) encodes entered fun m encodes₁ =>
            .in_block (fun t ht => plain t (by grind)) encodes₁
              (first.met fits.2.2.1 begun inside encodes₁)
      | elseIf _ entered finished inside =>
          obtain ⟨d₁, entered, begun₁⟩ := Option.bind_eq_some_iff.mp entered
          exact .node (parts.enters category) encodes entered fun m encodes₁ =>
            first.met_else plain fits.2.2.1 encodes₁ begun₁ finished fun m encodes₂ =>
              inner.met fits.2.2.2.2.1.node category' inside encodes₂

end

theorem Functions.met {ts : List Tree} {gs rest : List Function} {f : Function}
    (shown : Functions ts (gs ++ f :: rest)) (fits : Fits (Tree.walkAll ts)) {d d₁ d₂ e : Sketch}
    {s : Compound} (drew : drawAll gs d = some d₁)
    (entered : (d₁.enterFunction f.name).bind enterBlock = some d₂)
    (reaches : f.body.Reaches d₂ s e) {b : Builder} (encodes : d.Encodes b) :
    s.Met e b (Tree.walkAll ts) := by
  generalize same : gs ++ f :: rest = fs at shown
  induction shown generalizing gs d b with
  | none => cases gs <;> cases same
  | plain plain _ ih =>
      rw [Tree.walkAll, Fits.append] at fits
      exact .after_plain [_] (List.forall_mem_singleton.mpr plain) encodes
        (ih fits.2 drew encodes same)
  | @declares t g ts fs first _ ih =>
      rw [Tree.walkAll, Fits.append] at fits
      rw [Tree.walkAll]
      cases gs with
      | nil =>
          cases same
          cases drew
          obtain @⟨k, keyword, name, block, us, body, category, plain, within⟩ := first
          have inner := fits.1.node
          simp only [walkAll_append, Tree.walkAll, Fits.append] at inner
          obtain ⟨d₁, entered, begun⟩ := Option.bind_eq_some_iff.mp entered
          refine Compound.Met.append
            (.node (enters_function category) encodes entered fun m encodes₁ => ?_) _
          exact .after_plain _ plain encodes₁
            ((within.met inner.2.1 begun reaches encodes₁).append _)
      | cons g gs =>
          cases same
          obtain ⟨d₁, first', rest'⟩ := Option.bind_eq_some_iff.mp drew
          exact .after (first.draws fits.1) encodes first' fun m encodes₁ =>
            ih fits.2 rest' encodes₁ rfl

/-- A statement to which the drawing of a source comes is entered in the walk of a tree that shows
the source. -/
theorem Shows.met {t : Tree} {gs rest : List Function} {f : Function}
    (shown : Shows t (gs ++ f :: rest)) (fits : Fits t.walk) {d₁ d₂ e : Sketch} {s : Compound}
    (drew : drawAll gs {} = some d₁)
    (entered : (d₁.enterFunction f.name).bind enterBlock = some d₂)
    (reaches : f.body.Reaches d₂ s e) : s.Met e (Builder.new .late) t.walk := by
  generalize same : gs ++ f :: rest = fs at shown
  obtain @⟨h, ts, _, category, functions⟩ := shown
  subst same
  have entering : Hook.onEnter? h.category = none := congrArg Hook.onEnter? category
  obtain ⟨before, k, vs, after, c, split, shown, passes, encodes⟩ :=
    functions.met fits.node drew entered reaches encodes_new
  refine ⟨.enter h ts :: before, k, vs, after ++ [.leave h ts], c, ?_, shown,
    (passes_enter entering).mpr passes, encodes⟩
  rw [Tree.walk, split, List.cons_append, List.append_assoc, List.cons_append]

end GoFlow
