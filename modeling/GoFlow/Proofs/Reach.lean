import GoFlow.Proofs.Between
import GoFlow.Proofs.Accounts

/-! Which nodes of a function can be reached from its entry. In a source with layered bodies all of
them can, unless the first function begins with a loop in which there is another one: the number of
that loop is the level of its block, so that nothing is connected with it, and when it is left
another loop is taken for it. -/

namespace GoFlow

open Dot (Statement Route endNode)
open Move Builder Sketch

theorem Dot.Route.snoc {g : List Statement} {a b tail head : String} {route : List Statement}
    {attributes : List (String × String)} (r : Route g a b route)
    (edge : .edge tail head attributes ∈ g) (next : endNode tail = b) :
    ∃ longer, Route g a (endNode head) longer := by
  induction r with
  | stay b =>
      rw [← next]
      exact ⟨_, .step edge (.stay _)⟩
  | step first _ ih =>
      obtain ⟨longer, r⟩ := ih next
      exact ⟨_, .step first r⟩

/-- The nodes that are fed from a node, one after another, can be reached from it. -/
theorem Sketch.Fed.reached {s : Spot} {d d' : Sketch} {g : List Statement}
    (fed : Fed [.south s] d d') (drawn : ∀ x ∈ d'.strokes, x.statement ∈ g)
    (rises : ∀ e ∈ g, e.Rises ∨ e.Closes) (bounded : ∀ t ∈ d.nodes, t.number ≤ d.count) {t : Spot}
    (member : t ∈ d'.nodes) (new : t ∉ d.nodes) : ∃ route, Route g s.name t.name route := by
  induction number : t.number using Nat.strong_induction_on generalizing t with
  | _ n ih =>
      obtain ⟨p, a, edge, plain, before⟩ := (fed t member).resolve_left new
      have there : .edge p.tail (t.name ++ ":" ++ "n") a ∈ g := drawn _ edge
      have less : p.spot.number < t.number := by
        have rise := (rises _ there).resolve_right plain
        rwa [Statement.Rises, endNode_tail, endNode_head, Spot.number_name, Spot.number_name]
          at rise
      obtain ⟨route, r⟩ : ∃ route, Route g s.name p.spot.name route := by
        rcases before with here | ⟨inside, beyond⟩
        · cases List.mem_singleton.mp here
          exact ⟨[], .stay _⟩
        · exact ih p.spot.number (number ▸ less) inside
            (fun old => absurd (bounded _ old) (by omega)) rfl
      obtain ⟨longer, r⟩ := r.snoc there (endNode_tail p)
      rw [endNode_head] at r
      exact ⟨longer, r⟩

def NoFunction (es : List Event) : Prop := ∀ h us, .enter h us ∈ es → h.category ≠ .functionDecl

namespace NoFunction

theorem nil : NoFunction (Tree.walkAll []) := by simp [NoFunction, Tree.walkAll]

theorem append {es fs : List Event} : NoFunction (es ++ fs) ↔ NoFunction es ∧ NoFunction fs := by
  simp only [NoFunction, List.mem_append, or_imp, forall_and]

theorem cons {t : Tree} {ts : List Tree} :
    NoFunction (Tree.walkAll (t :: ts)) ↔ NoFunction t.walk ∧ NoFunction (Tree.walkAll ts) := by
  rw [Tree.walkAll, append]

theorem node {h : Head} {us : List Tree} (other : h.category ≠ .functionDecl)
    (inside : NoFunction (Tree.walkAll us)) : NoFunction (Tree.node h us).walk := by
  intro k vs entered
  rw [Tree.walk, List.mem_cons, List.mem_append, List.mem_singleton] at entered
  rcases entered with same | within | ⟨⟨⟩⟩
  · cases same
    exact other
  · exact inside k vs within

theorem plain {t : Tree} (plain : t.Plain) : NoFunction t.walk := fun _ _ entered function =>
  plain.events entered .functionDecl (congrArg some function) (by decide)

theorem plains {ts : List Tree} (plain : ∀ t ∈ ts, t.Plain) : NoFunction (Tree.walkAll ts) := by
  intro h us entered
  obtain ⟨t, member, entered⟩ := Tree.mem_walkAll.mp entered
  exact NoFunction.plain (plain t member) h us entered

end NoFunction

mutual

theorem Statements.noFunction {ts : List Tree} {body : Body} (shown : Statements ts body) :
    NoFunction (Tree.walkAll ts) :=
  match shown with
  | .none => .nil
  | .plain plain rest => NoFunction.cons.mpr ⟨.plain plain, rest.noFunction⟩
  | .within wrapper inner => by
      have both := inner.noFunction
      rw [walkAll_append, NoFunction.append] at both
      refine NoFunction.cons.mpr ⟨.node (fun function => ?_) both.1, both.2⟩
      rw [function] at wrapper
      exact absurd wrapper (by decide)
  | .assignment category plain _ rest =>
      NoFunction.cons.mpr ⟨.node (by rw [category]; decide) (.plains plain), rest.noFunction⟩
  | .branch category parts rest =>
      NoFunction.cons.mpr ⟨.node (by rw [category]; decide) parts.noFunction, rest.noFunction⟩
  | .loop category plain inside rest =>
      have children :=
        NoFunction.append.mpr ⟨.plains plain, NoFunction.cons.mpr ⟨inside.noFunction, .nil⟩⟩
      NoFunction.cons.mpr ⟨.node (by rw [category]; decide) (by rwa [← walkAll_append] at children),
      rest.noFunction⟩

theorem Block.noFunction {t : Tree} {body : Body} (shown : Block t body) : NoFunction t.walk :=
  match shown with
  | .intro category statements => .node (by rw [category]; decide) statements.noFunction

theorem BranchParts.noFunction {us : List Tree} {condition : String} {yes : Body} {no : Otherwise}
    (shown : BranchParts us condition yes no) : NoFunction (Tree.walkAll us) :=
  match shown with
  | .bare plain first => by
      simp only [NoFunction.cons]
      exact ⟨.plain (plain _ (by simp)), .plain (plain _ (by simp)), first.noFunction, .nil⟩
  | .withElse plain first second => by
      simp only [NoFunction.cons]
      exact ⟨.plain (plain _ (by simp)), .plain (plain _ (by simp)), first.noFunction,
        .plain (plain _ (by simp)), second.noFunction, .nil⟩
  | .withElseIf plain first category parts => by
      simp only [NoFunction.cons]
      exact ⟨.plain (plain _ (by simp)), .plain (plain _ (by simp)), first.noFunction,
        .plain (plain _ (by simp)), .node (by rw [category]; decide) parts.noFunction, .nil⟩

end

/-- A function is declared at the top of a source only; those before it have been drawn when it is
entered. -/
theorem Functions.declared {ts : List Tree} {fs : List Function} (shown : Functions ts fs)
    {before after : List Event} {h : Head} {us : List Tree}
    (split : Tree.walkAll ts = before ++ .enter h us :: after)
    (category : h.category = .functionDecl) {d : Sketch} {b c : Builder} (encodes : d.Encodes b)
    (passes : Passes before b c) :
    ∃ gs f rest d₁, fs = gs ++ f :: rest ∧ Declares (.node h us) f ∧ drawAll gs d = some d₁ ∧
      d₁.Encodes c := by
  induction shown generalizing before d b with
  | none =>
      rw [Tree.walkAll] at split
      cases before <;> cases split
  | plain plain _ ih =>
      rw [Tree.walkAll] at split
      rcases split_append split with ⟨_, inside⟩ | ⟨later, rfl, beyond⟩
      · exact absurd category (NoFunction.plain plain h us (by rw [inside]; simp))
      · exact ih beyond encodes ((passes_plain plain encodes.phase).mp passes)
  | @declares t f ts fs first _ ih =>
      rw [Tree.walkAll] at split
      rcases split_append split with ⟨_, inside⟩ | ⟨later, rfl, beyond⟩
      · have whole := first
        obtain @⟨k, keyword, name, block, vs, body, _, plain, within⟩ := first
        rcases split_node inside with ⟨rfl, rfl, rfl⟩ | ⟨inner, _, rfl, deeper⟩
        · cases passes
          exact ⟨[], _, fs, d, rfl, whole, rfl, encodes⟩
        · have free : NoFunction (Tree.walkAll (keyword :: name :: vs ++ [block])) := by
            rw [walkAll_append]
            exact NoFunction.append.mpr
              ⟨.plains plain, NoFunction.cons.mpr ⟨within.noFunction, .nil⟩⟩
          exact absurd category (free h us (by rw [deeper]; simp))
      · obtain ⟨m, walked, passes⟩ := passes_append.mp passes
        obtain ⟨d₁, drew, encodes₁⟩ := (first.draws walked.fits).passes encodes walked
        obtain ⟨gs, g, rest, d₂, rfl, declares, drewRest, encodes₂⟩ := ih beyond encodes₁ passes
        exact ⟨f :: gs, g, rest, d₂, rfl, declares,
          Option.bind_eq_some_iff.mpr ⟨d₁, drew, drewRest⟩, encodes₂⟩

theorem Shows.declared {t : Tree} {fs : List Function} (shown : Shows t fs)
    {before after : List Event} {h : Head} {us : List Tree}
    (split : t.walk = before ++ .enter h us :: after) (category : h.category = .functionDecl)
    {c : Builder} (passes : Passes before (Builder.new .late) c) :
    ∃ gs f rest d₁, fs = gs ++ f :: rest ∧ Declares (.node h us) f ∧ drawAll gs {} = some d₁ ∧
      d₁.Encodes c := by
  obtain ⟨source, functions⟩ := shown
  rcases split_node split with ⟨_, rfl, _⟩ | ⟨inner, _, rfl, deeper⟩
  · rw [category] at source
    cases source
  · have entering : Hook.onEnter? _ = none := congrArg Hook.onEnter? source
    exact functions.declared deeper category encodes_new ((passes_enter entering).mp passes)

/-- Nothing but plain trees stands before the first function. -/
theorem Shows.first {t : Tree} {f : Function} {fs : List Function} (shown : Shows t (f :: fs)) :
    ∃ before h us, before ++ (Tree.node h us).walk <+: t.walk ∧ h.category = .functionDecl ∧
      Declares (.node h us) f ∧ Passes before (Builder.new .late) (Builder.new .late) := by
  obtain @⟨k, ts, _, source, functions⟩ := shown
  have inner : ∀ {ts : List Tree} {gs : List Function}, Functions ts gs → gs = f :: fs →
      ∃ before h us, before ++ (Tree.node h us).walk <+: Tree.walkAll ts ∧
      h.category = .functionDecl ∧
        Declares (.node h us) f ∧ Passes before (Builder.new .late) (Builder.new .late) := by
    intro ts gs functions same
    induction functions with
    | none => cases same
    | @plain t _ _ plain _ ih =>
        obtain ⟨before, h, us, initial, category, declares, passes⟩ := ih same
        refine ⟨t.walk ++ before, h, us, ?_, category, declares,
          (passes_plain plain rfl).mpr passes⟩
        rw [List.append_assoc, Tree.walkAll]
        exact (List.prefix_append_right_inj _).mpr initial
    | declares first _ _ =>
        cases same
        have whole := first
        obtain ⟨category, _⟩ := first
        exact ⟨[], _, _, by rw [Tree.walkAll]; exact List.prefix_append _ _, category, whole, rfl⟩
  obtain ⟨before, h, us, initial, category, declares, passes⟩ := inner functions rfl
  have entering : Hook.onEnter? _ = none := congrArg Hook.onEnter? source
  refine ⟨.enter k ts :: before, h, us, ?_, category, declares, (passes_enter entering).mpr passes⟩
  rw [List.cons_append, Tree.walk]
  exact List.cons_prefix_cons.mpr ⟨rfl, initial.trans (List.prefix_append _ _)⟩

/-- Where the number of a loop is the level of its block, and there is another loop in it, nothing
that is drawn later begins at a node that was there when the block was entered. -/
theorem Body.cutOff {condition : String} {inner rest : Body}
    (layered : (Body.loop condition inner rest).Layered)
    (merged : (Body.loop condition inner rest).Merged) (nested : inner.loopCount ≠ 0) {d : Sketch}
    (outside : d.Outside) (tight : d.level = d.count) :
    ∃ l d₁ d', InBlock l d d₁ ∧ (Body.loop condition inner rest).finish d = some d' ∧
      Grown [] d₁ d' ∧
      ∀ p ∈ d'.tips, d₁.count < p.spot.number := by
  obtain ⟨⟨layeredInner, nonempty⟩, layered⟩ := layered
  obtain ⟨l, d₁, entered, block⟩ := outside.entersLoop condition
  obtain ⟨d₂, finished, level, inside, _⟩ :=
    inner.layers layeredInner merged.1 nonempty d₁ block.outside
  obtain ⟨d₃, _, _, left, _, adds, level', _, _, _, _, cut⟩ :=
    block.leaves outside inside (inner.entry_subset d₁) (by rw [level, block.level]; omega)
  obtain ⟨grown, tips⟩ := cut nested
  have alone : inner.entry d₁ = [] := by
    have same : inner.entry d₁ = d₁.opening := by
      cases inner with
      | run text rest =>
          refine entry_run text ?_
          rintro rfl
          exact nested rfl
      | _ => rfl
    obtain ⟨below, last⟩ := block.last
    have tied : (l.number : Int) = d₁.level := by
      have := block.number
      rw [block.level]
      omega
    rw [same, opening, last]
    simp [apart, block.loops, tied, Tip.spot, Tip.hasRole, Port.spot, block.role]
  rw [alone] at grown
  have drew : drawFor condition inner d = some d₃ := drawFor_of_parts entered finished left
  rw [finish_loop, drew, Option.bind_some]
  by_cases last : rest = .done
  · subst last
    exact ⟨l, d₁, d₃.lower, block, finish_held adds.outside.held,
      ⟨grown.1, grown.2, grown.3, grown.4⟩, tips⟩
  · obtain ⟨d', finished, _, addsRest, _⟩ := rest.layers layered merged.2 last d₃ adds.outside
    exact ⟨l, d₁, d', block, finished, grown.trans addsRest.grown fun p hp =>
      tips p (rest.entry_subset d₃ hp),
      fun p hp => Nat.lt_of_le_of_lt grown.count (addsRest.tips p hp)⟩

def Builder.declared (b : Builder) : List String := b.graph.filterMap Statement.declares

theorem declared_built (es : List Event) : (built es).declared = (built es).nodes := by
  rw [Builder.declared, built, (go_heed none (Builder.new .late) es).1]
  exact ((Accounted.new .late).heed es).declared

/-- Each node declared while the tree is walked after the events can be reached from the one made on
entering it. -/
def ReachesOwn (g : List Statement) (before : List Event) (h : Head) (us : List Tree) : Prop :=
  ∃ own, madeOnEntering before h us = some own ∧
    ∀ name ∈ (built (before ++ (Tree.node h us).walk)).declared, name ∉ (built before).declared →
      ∃ route, Route g own name route

section

variable {before : List Event} {h : Head} {us : List Tree} {f : Function} {s : Spot}
  {d d₁ d' : Sketch} {b c : Builder}

theorem Declares.made (declares : Declares (.node h us) f)
    (entered : (d.enterFunction f.name).bind enterBlock = some d₁) (inside : InFunction s d d₁)
    (encodes : d.Encodes b) (first : Passes before (Builder.new .late) b)
    (walked : Passes (Tree.node h us).walk b c) : madeOnEntering before h us = some s.name := by
  obtain @⟨_, keyword, name, block, vs, body, category, _, _⟩ := declares
  obtain ⟨m, entering, _⟩ := passes_append.mp
    (show Passes ([.enter h (keyword :: name :: vs ++ [block])] ++ _) b c from walked)
  obtain ⟨d₀, begun, encodes₀⟩ := (enters_function category).passes encodes entering
  obtain ⟨_, begun', enteredBlock⟩ := Option.bind_eq_some_iff.mp entered
  cases begun.symm.trans begun'
  obtain ⟨_, drawing⟩ := inside.drawing
  have nodes : d₁.nodes = d.nodes ++ [s] := congrArg Drawing.nodes drawing
  rw [madeOnEntering, (passes_append.mpr ⟨b, first, entering⟩).built, encodes₀.nodes,
    List.getLast?_map, ← enterBlock_nodes enteredBlock, nodes, List.getLast?_concat]
  rfl

/-- The nodes declared by events are those that their sketch has more. -/
theorem mem_declared_iff {name : String} {es : List Event} (encodes : d.Encodes b)
    (encodes' : d'.Encodes c) (first : Passes before (Builder.new .late) b)
    (walked : Passes es b c) :
    name ∈ (built (before ++ es)).declared ∧ name ∉ (built before).declared ↔
      ∃ t ∈ d'.nodes, t ∉ d.nodes ∧ t.name = name := by
  have inside {t : Spot} {ts : List Spot} : t.name ∈ ts.map Spot.name ↔ t ∈ ts :=
    List.mem_map_of_injective Spot.name_injective
  rw [declared_built, declared_built, (passes_append.mpr ⟨b, first, walked⟩).built, first.built,
    encodes.nodes, encodes'.nodes]
  constructor
  · rintro ⟨member, new⟩
    obtain ⟨t, ht, rfl⟩ := List.mem_map.mp member
    exact ⟨t, ht, fun old => new (inside.mpr old), rfl⟩
  · rintro ⟨t, ht, new, rfl⟩
    exact ⟨inside.mpr ht, fun old => new (inside.mp old)⟩

theorem Declares.reachesOwn {g : List Statement} (declares : Declares (.node h us) f)
    (layered : f.body.Layered) (merged : f.body.Merged) (idle : d = {} ∨ d.Between)
    (encodes : d.Encodes b) (first : Passes before (Builder.new .late) b)
    (walked : Passes (Tree.node h us).walk b c)
    (joined : ∀ s d₁, InFunction s d d₁ → f.body.Joined d₁)
    (kept : ∀ d', f.draw d = some d' → ∀ x ∈ d'.strokes, x.statement ∈ g)
    (rises : ∀ e ∈ g, e.Rises ∨ e.Closes) : ReachesOwn g before h us := by
  obtain ⟨s, d₁, d', n, entered, inside, drew, _, adds, fed⟩ := f.layers layered merged idle
  obtain ⟨_, drew', encodes'⟩ := (declares.draws walked.fits).passes encodes walked
  cases drew.symm.trans drew'
  obtain ⟨_, drawing⟩ := inside.drawing
  have nodes : d₁.nodes = d.nodes ++ [s] := congrArg Drawing.nodes drawing
  have fed := fed (joined s d₁ inside)
  rw [inside.tips] at fed
  refine ⟨s.name, declares.made entered inside encodes first walked, fun name member new => ?_⟩
  obtain ⟨t, ht, out, rfl⟩ := (mem_declared_iff encodes encodes' first walked).mp ⟨member, new⟩
  by_cases own : t = s
  · rw [own]
    exact ⟨[], .stay _⟩
  · refine fed.reached (kept d' drew) rises inside.outside.tidy.bounded ht ?_
    rw [nodes]
    simp [own, out]

end

theorem drawAll_append (gs fs : List Function) (d : Sketch) :
    drawAll (gs ++ fs) d = (drawAll gs d).bind (drawAll fs) := by
  induction gs generalizing d with
  | nil => rfl
  | cons g gs ih =>
      simp only [List.cons_append, drawAll, Option.bind_eq_bind, Option.bind_assoc, ih]

/-- The first function begins with a loop in which there is another one: nothing that is drawn later
begins at the entry or at the node of that loop. -/
theorem Function.cutOff {f : Function} (layered : f.body.Layered) (merged : f.body.Merged)
    (nested : f.body.nestsFirst = true) :
    ∃ s l d₁ d₂ d', (({} : Sketch).enterFunction f.name).bind enterBlock = some d₁ ∧
      InFunction s {} d₁ ∧
      InBlock l d₁ d₂ ∧ f.draw {} = some d' ∧ d'.Between ∧ Grown [] d₂ d' ∧
      ∀ p ∈ d'.tips, d₂.count < p.spot.number := by
  obtain ⟨s, d₁, d', _, entered, inside, drew, between, _⟩ := f.layers layered merged (.inl rfl)
  have level := inside.level
  have count : d₁.count = 1 := congrArg Drawing.count inside.drawing.choose_spec
  cases body : f.body with
  | loop condition inner rest =>
      rw [body] at layered merged nested
      have some : inner.loopCount ≠ 0 := by simpa [Body.nestsFirst] using nested
      obtain ⟨l, d₂, d₃, block, finished, grown, tips⟩ :=
        Body.cutOff layered merged some inside.outside (by omega)
      obtain ⟨_, finished', _, adds, _⟩ :=
        Body.layers _ layered merged (fun done => by cases done) d₁ inside.outside
      cases finished.symm.trans finished'
      obtain ⟨_, left, _, adds', _⟩ :=
        adds.outside.leaveFunction (adds.loops.trans inside.loops) f.name
      have drew' := drew
      rw [Function.draw_eq, entered, Option.bind_some, body, finished, Option.bind_some, left]
        at drew'
      cases drew'
      exact ⟨s, l, d₁, d₂, _, entered, inside, block, drew, between, grown.trans adds'.grown tips,
        fun p hp => Nat.lt_of_le_of_lt grown.count (adds'.tips p hp)⟩
  | _ => rw [body] at nested; cases nested

/-- If no later edge begins at the entry or at the loop after it, no route leads beyond that
loop. -/
theorem no_route_beyond {s l x : Spot} {d₁ d₂ d' : Sketch} (inside : InFunction s {} d₁)
    (block : InBlock l d₁ d₂) (grown : Grown [] d₂ d') (beyond : d₂.count < x.number)
    (route : List Statement) : ¬ Route (d'.strokes.map Stroke.statement) s.name x.name route := by
  obtain ⟨_, drawing₁⟩ := inside.drawing
  obtain ⟨_, drawing₂⟩ := block.drawing
  have count₁ : d₁.count = 1 := congrArg Drawing.count drawing₁
  have count₂ : d₂.count = d₁.count + 1 := congrArg Drawing.count drawing₂
  have strokes₁ : d₁.strokes = [.node s _ "box"] := congrArg Drawing.strokes drawing₁
  have strokes₂ : d₂.strokes = d₁.strokes ++ .node l _ "egg" :: into d₁.opening l :=
    congrArg Drawing.strokes drawing₂
  have number : s.number = 1 := inside.number
  have number' := block.number
  have stays {a b : String} {route : List Statement}
    (r : Route (d'.strokes.map Stroke.statement) a b route)
      (start : a = s.name ∨ a = l.name) : b = s.name ∨ b = l.name := by
    induction r with
    | stay => exact start
    | step edge _ ih =>
        obtain ⟨p, t, drawn, rfl, rfl⟩ := edge_mem_statements.mp edge
        rw [endNode_tail] at start
        have early : p.spot.number ≤ d₂.count := by
          rcases start with same | same <;> rw [Spot.name_injective same] <;> omega
        have old : .edge p t _ ∈ d₂.strokes := (grown.edges p t _ drawn).resolve_right fun later =>
          later.2.elim List.not_mem_nil (Nat.not_lt.mpr early)
        rw [strokes₂, strokes₁] at old
        simp only [List.singleton_append, List.mem_cons, into, List.mem_map, reduceCtorEq, false_or]
          at old
        obtain ⟨_, _, same⟩ := old
        cases same
        exact ih (.inr (endNode_head l))
  intro r
  rcases stays r (.inl rfl) with same | same <;> rw [Spot.name_injective same] at beyond <;> omega

section

variable {t : Tree} {fs : List Function} {before : List Event} {h : Head} {us : List Tree}
  {d : Sketch} {c : Builder}

theorem Shows.reached (shown : Shows t fs) (layered : ∀ f ∈ fs, f.body.Layered)
    (merged : ∀ f ∈ fs, f.body.Merged) (single : ∀ f ∈ fs.head?, f.body.nestsFirst = false)
    (drew : drawAll fs {} = some d) (passes : Passes t.walk (Builder.new .late) c)
    (rises : ∀ e ∈ d.strokes.map Stroke.statement, e.Rises ∨ e.Closes)
    (stands : before ++ (Tree.node h us).walk <+: t.walk) (category : h.category = .functionDecl) :
    ReachesOwn (d.strokes.map Stroke.statement) before h us := by
  obtain ⟨b, m, after, first, walked, split⟩ := passes.within stands
  obtain ⟨gs, f, rest, d₀, rfl, declares, drewFirst, encodes⟩ := shown.declared split category first
  simp only [List.forall_mem_append, List.forall_mem_cons] at layered merged
  obtain ⟨_, drewFirst', idle, _⟩ := layers_all gs layered.1 merged.1 (.inl rfl)
  cases drewFirst.symm.trans drewFirst'
  obtain ⟨_, _, d', _, _, _, drewHere, between, _⟩ :=
    f.layers layered.2.1 merged.2.1 (idle.imp And.right And.left)
  obtain ⟨_, drewRest, _, grown, _⟩ := layers_all rest layered.2.2 merged.2.2 (.inr between)
  rw [drawAll_append, drewFirst, Option.bind_some, drawAll, drewHere] at drew
  cases drewRest.symm.trans drew
  refine declares.reachesOwn layered.2.1 merged.2.1
    (idle.imp And.right And.left) encodes first walked
    (fun s d₁ inside => ?_) (fun d'' drewHere' x hx => ?_) rises
  · rcases idle with ⟨rfl, _⟩ | ⟨between, _⟩
    · exact .inr ⟨inside.loops, inside.level, single f rfl⟩
    · have level := inside.level
      have begun := between.begun
      have count : d₁.count = d₀.count + 1 := congrArg Drawing.count inside.drawing.choose_spec
      exact .inl ⟨by simp [inside.loops], by omega⟩
  · cases drewHere.symm.trans drewHere'
    exact List.mem_map_of_mem (grown.kept x hx)

theorem Shows.unreached {f : Function} (shown : Shows t (f :: fs))
    (layered : ∀ g ∈ f :: fs, g.body.Layered) (merged : ∀ g ∈ f :: fs, g.body.Merged)
    (nested : f.body.nestsFirst = true) (drew : drawAll (f :: fs) {} = some d)
    (passes : Passes t.walk (Builder.new .late) c) :
    ∃ before h us, before ++ (Tree.node h us).walk <+: t.walk ∧ h.category = .functionDecl ∧
      ¬ ReachesOwn (d.strokes.map Stroke.statement) before h us := by
  obtain ⟨layeredFirst, layered⟩ := List.forall_mem_cons.mp layered
  obtain ⟨mergedFirst, merged⟩ := List.forall_mem_cons.mp merged
  obtain ⟨s, l, d₁, d₂, d', entered, inside, block, drewFirst, between, grown, tips⟩ :=
    Function.cutOff layeredFirst mergedFirst nested
  obtain ⟨_, drewRest, _, grownRest, _⟩ := layers_all fs layered merged (.inr between)
  rw [drawAll, drewFirst] at drew
  cases drewRest.symm.trans drew
  obtain ⟨p, tip⟩ := List.exists_mem_of_ne_nil _ between.outside.tail
  obtain ⟨before, h, us, stands, category, declares, start⟩ := shown.first
  refine ⟨before, h, us, stands, category, ?_⟩
  rintro ⟨own, made, reached⟩
  obtain ⟨b, m, _, first, walked, _⟩ := passes.within stands
  cases start.symm.trans first
  obtain ⟨_, drewFirst', encodes⟩ := (declares.draws walked.fits).passes encodes_new walked
  cases drewFirst.symm.trans drewFirst'
  cases made.symm.trans (declares.made entered inside encodes_new first walked)
  obtain ⟨here, new⟩ := (mem_declared_iff encodes_new encodes first walked).mpr
    ⟨p.spot, between.outside.made p tip, List.not_mem_nil, rfl⟩
  obtain ⟨route, r⟩ := reached p.spot.name here new
  exact no_route_beyond inside block (grown.trans grownRest tips) (tips p tip) route r

end

/-- In a source with layered bodies, each node declared while a function is walked can be reached
from the entry of the function just if the first function does not begin with a loop in which there
is another one. The walk is completed in any case. -/
theorem reached_iff_not_nested (t : Tree) (fs : List Function) (shown : Shows t fs)
    (paired : ∀ e ∈ t.walk, e.Assigns fun names values => values = names)
    (layered : ∀ f ∈ fs, f.body.Layered) :
    ((Builder.new .late).follow t).mishap = none ∧
      ((∀ before h us, before ++ (Tree.node h us).walk <+: t.walk → h.category = .functionDecl →
          ReachesOwn ((Builder.new .late).follow t).builder.graph before h us) ↔
        ∀ f ∈ fs.head?, f.body.nestsFirst = false) := by
  have fits : Fits t.walk := fits_of_paired paired
  have merged := shown.merged fits
  obtain ⟨completed, encodes⟩ := shown.follow fits
  obtain ⟨d, drew, _⟩ := layers_all fs layered merged (.inl rfl)
  have done := completed.mpr (by rw [drew]; rfl)
  have passes : Passes t.walk (Builder.new .late) _ := passes_built done
  have state := heed_closes t.walk
  rw [← (go_heed none (Builder.new .late) t.walk).1] at state
  have graph : ((Builder.new .late).follow t).builder.graph = d.strokes.map Stroke.statement :=
    (encodes d drew).graph
  rw [graph]
  refine ⟨done, fun reached f first => ?_, fun single before h us stands category => ?_⟩
  · cases fs with
    | nil => cases first
    | cons g fs =>
        cases first
        by_contra nested
        obtain ⟨before, h, us, stands, category, unreached⟩ :=
          shown.unreached layered merged (Bool.eq_true_of_not_eq_false nested) drew passes
        exact unreached (reached before h us stands category)
  · exact shown.reached layered merged single drew passes (graph ▸ state.1.edges) stands category

section

open GoFlow.Tree

def loopInside : List Tree := [assign "x" "1", forLoop "d" [assign "x" "2"]]

def loopsFirst : Tree := of .sourceFile [func "f" [forLoop "c" loopInside, assign "x" "3"]]

def loopsFirstBody : Body :=
  .loop "c" (.run "x = 1 \n" (.loop "d" (.run "x = 2 \n" .done) .done)) (.run "x = 3 \n" .done)

theorem loopsFirst_shows : Shows loopsFirst [⟨"f", loopsFirstBody⟩] :=
  have inner : Block (braces [assign "x" "2"]) (.run "x = 2 \n" .done) :=
    .braces (.assign "x" "2" .close)
  have outer : Block (braces loopInside)
      (.run "x = 1 \n" (.loop "d" (.run "x = 2 \n" .done) .done)) :=
    .braces (.assign "x" "1" (.forLoop "d" inner .close))
  .intro rfl (.declares (.func "f" (.braces (.forLoop "c" outer (.assign "x" "3" .close)))) .none)

theorem loopsFirst_unreached :
    loopsFirstBody.Layered ∧ ((Builder.new .late).follow loopsFirst).mishap = none ∧
    ∃ before h us, before ++ (Tree.node h us).walk <+: loopsFirst.walk ∧
      h.category = .functionDecl ∧
      ¬ ReachesOwn ((Builder.new .late).follow loopsFirst).builder.graph before h us := by
  have layered : loopsFirstBody.Layered := by simp [loopsFirstBody, Body.Layered]
  obtain ⟨done, reached⟩ :=
    reached_iff_not_nested loopsFirst [⟨"f", loopsFirstBody⟩] loopsFirst_shows
      (by decide +kernel) (by simpa using layered)
  refine ⟨layered, done, ?_⟩
  by_contra all
  push Not at all
  exact absurd (reached.mp all ⟨"f", loopsFirstBody⟩ rfl) (by decide)

end

end GoFlow
