import GoFlow.Proofs.Changes
import GoFlow.Proofs.Source
import Mathlib.Data.List.Induction

/-! Cycles of the graph. Nothing is taken from a graph while a tree is walked, so each graph that is
drawn is an initial part of the last one. Its edges lead to larger numbers, but for those that are
added last when a loop is left; a cycle therefore passes through one of these. -/

namespace GoFlow

open Dot (Statement endNode)

namespace Dot

/-- An edge that leads back to the beginning of a loop. -/
def Statement.Closes : Statement → Prop
  | .edge _ _ attributes => ("headport", "w") ∈ attributes
  | _ => False

/-- An edge leads to a node with a larger number. Nothing is asked of other statements. -/
def Statement.Rises : Statement → Prop
  | .edge tail head _ => nodeNumber (endNode tail) < nodeNumber (endNode head)
  | _ => True

instance (s : Statement) : Decidable s.Closes :=
  match s with
  | .edge _ _ attributes => inferInstanceAs (Decidable (("headport", "w") ∈ attributes))
  | .setting _ _ => isFalse id
  | .node _ _ _ => isFalse id

/-- The edges lead from a node to a node, one after another. -/
inductive Route (g : List Statement) : String → String → List Statement → Prop
  | stay (a : String) : Route g a a []
  | step {tail head c : String} {attributes : List (String × String)} {route : List Statement}
      (edge : .edge tail head attributes ∈ g) (rest : Route g (endNode head) c route) :
      Route g (endNode tail) c (.edge tail head attributes :: route)

/-- No route leads back to where it begins. -/
def Acyclic (g : List Statement) : Prop := ∀ a route, Route g a a route → route = []

theorem Route.mem {g : List Statement} {a b : String} {route : List Statement}
    (r : Route g a b route) {s : Statement} (hs : s ∈ route) : s ∈ g := by
  induction r with
  | stay => cases hs
  | step edge _ ih =>
      rcases List.mem_cons.mp hs with rfl | later
      · exact edge
      · exact ih later

theorem Route.number_le {g : List Statement} {a b : String} {route : List Statement}
    (r : Route g a b route) (rise : ∀ s ∈ route, s.Rises) :
    nodeNumber a + route.length ≤ nodeNumber b := by
  induction r with
  | stay => exact Nat.le_refl _
  | step _ _ ih =>
      have first := rise _ List.mem_cons_self
      have later := ih fun s hs => rise s (List.mem_cons_of_mem _ hs)
      simp only [Statement.Rises, List.length_cons] at *
      omega

theorem acyclic_of_rises {g : List Statement} (rise : ∀ s ∈ g, s.Rises) : Acyclic g := by
  intro a route r
  have length := r.number_le fun s hs => rise s (r.mem hs)
  exact List.eq_nil_of_length_eq_zero (by omega)

end Dot

open Dot Move Builder

/-- The statement was the last one to be added when a loop was left, at some moment of the walk. -/
def EndsLoop (es : List Event) (s : Statement) : Prop :=
  ∃ before head ts, before ++ [Event.leave head ts] <+: es ∧ head.category = .forStmt ∧
    (Following.go none (Builder.new .late) before).mishap = none ∧
    ∃ b, (Following.go none (Builder.new .late) before).builder = b ∧
      ∃ g, b.graph <+: g ∧ (b.perform leaveFor).2.graph = g ++ [s]

theorem EndsLoop.mono {es fs : List Event} {s : Statement} (h : EndsLoop es s)
    (initial : es <+: fs) : EndsLoop fs s := by
  obtain ⟨before, head, ts, early, rest⟩ := h
  exact ⟨before, head, ts, early.trans initial, rest⟩

theorem leaveFor_of_event {e : Event} {ts : List Tree}
    (h : Hook.ofEvent? e = some (.leaveFor, ts)) :
    ∃ head, e = .leave head ts ∧ head.category = .forStmt := by
  cases e with
  | leaf l => cases h
  | enter head us =>
      obtain ⟨k, hk, same⟩ := Option.map_eq_some_iff.mp h
      cases same
      cases hc : head.category <;> simp [hc, Hook.onEnter?] at hk
  | leave head us =>
      obtain ⟨k, hk, same⟩ := Option.map_eq_some_iff.mp h
      cases same
      refine ⟨head, rfl, ?_⟩
      cases hc : head.category <;> first | rfl | simp [hc, Hook.onLeave?] at hk

/-- The graph goes on from `before`. What is new in it leads to larger numbers, and closes no
loop. -/
def Extends (before g : List Statement) : Prop :=
  ∃ added, g = before ++ added ∧ ∀ s ∈ added, s.Rises ∧ ¬ s.Closes

namespace Extends

theorem refl (g : List Statement) : Extends g g := ⟨[], by rw [List.append_nil], by rintro s ⟨⟩⟩

theorem trans {f g h : List Statement} (first : Extends f g) (second : Extends g h) :
    Extends f h := by
  obtain ⟨xs, rfl, before⟩ := first
  obtain ⟨ys, rfl, after⟩ := second
  exact ⟨xs ++ ys, by rw [List.append_assoc], List.forall_mem_append.mpr ⟨before, after⟩⟩

theorem isPrefix {before g : List Statement} (h : Extends before g) : before <+: g := by
  obtain ⟨added, rfl, -⟩ := h
  exact List.prefix_append before added

theorem mem {before g : List Statement} (h : Extends before g) {s : Statement} (hs : s ∈ g) :
    s ∈ before ∨ s.Rises ∧ ¬ s.Closes := by
  obtain ⟨added, rfl, fresh⟩ := h
  exact (List.mem_append.mp hs).imp_right (fresh s)

end Extends

theorem rises_link {s t : String} {attributes : List (String × String)} :
    (link s t attributes).Rises ↔ nodeNumber (endNode s) < nodeNumber (endNode t) := by
  rw [link, Statement.Rises, endNode_ported, endNode_ported]

namespace Builder.Regular

variable {b c : Builder} (regular : b.Regular)

include regular

theorem number_le {x : Item} (known : x.Known b.nodes) {s : String} (hs : s ∈ x.names) :
    nodeNumber (endNode s) ≤ b.count :=
  regular.bounded _ (known.endNode_mem regular.named hs)

theorem inward_rises {e : Statement} (inward : b.Inward e) : e.Rises ∧ ¬ e.Closes := by
  obtain ⟨s, t, attributes, first, node, less, known, rfl⟩ := inward
  obtain ⟨_, tail, ⟨⟩⟩ := regular.firsts _ first
  have opens : ∀ a ∈ inwardAttributes, ("headport", "w") ∉ a := by decide
  refine ⟨rises_link.mpr ?_, opens attributes known⟩
  rwa [(regular.named s tail).endNode_eq, (regular.named t node).endNode_eq]

theorem extends_of_change {T : String → Prop} {done : Prop} (change : Change T done b c) :
    Extends b.graph c.graph := by
  cases change with
  | aside same _ =>
      simp only [network, Prod.mk.injEq] at same
      rw [same.2.2.2.2.2.2]
      exact .refl _
  | @node kind content shape name text lasts ends edges _ _ known _ _ named _ settles =>
      refine ⟨.node name text shape :: edges, rfl, List.forall_mem_cons.mpr ⟨⟨trivial, id⟩, ?_⟩⟩
      intro e he
      obtain ⟨tail, top, s, hs, rfl⟩ := settles.mem.2.2 e he
      refine ⟨rises_link.mpr ?_, by simp [link, Statement.Closes]⟩
      have lettered := NodeName.lettered known
      rw [named, endNode_append lettered, nodeNumber_append lettered]
      exact Nat.lt_succ_of_le (regular.number_le (regular.ends tail (List.mem_of_head? top)) hs)
  | first _ => exact .refl _
  | last _ => exact .refl _
  | top _ => exact .refl _
  | branches left =>
      obtain ⟨_, _, _, _, edges, _, _, -, drew, rfl⟩ := left
      exact ⟨edges, rfl, fun e he => regular.inward_rises (drew.2 e he)⟩

theorem extends_of_reaches {T : String → Prop} (reaches : Reaches T b c) :
    Extends b.graph c.graph := by
  induction reaches with
  | refl => exact .refl _
  | tail before change ih =>
      exact ih.trans ((Reaches.regular regular before).extends_of_change change)

theorem extends_of_turned (late : b.edition = .late) {done : Prop}
    (turned : Leaves done b.Turns b c) :
    ∃ g s, Extends b.graph g ∧ c.graph = g ++ [s] ∧ s.Closes := by
  have closes (s loop : String) : (link s loop [("headport", "w"), ("tailport", "w")]).Closes :=
    List.mem_cons_self
  obtain ⟨_, _, _, _, _, _, _, -, drew, rfl⟩ := turned
  cases drew with
  | @straight inward s loop _ opens _ _ =>
      exact ⟨b.graph ++ inward, _, ⟨inward, rfl, fun e he => regular.inward_rises (opens e he)⟩,
        (List.append_assoc ..).symm, closes s loop⟩
  | @through inward tails dummy loop _ opens named _ offers _ =>
      refine ⟨b.graph ++ (inward ++ edgesFrom dummy tails), _, ⟨_, rfl, ?_⟩,
        (List.append_assoc ..).symm, closes dummy loop⟩
      refine List.forall_mem_append.mpr ⟨fun e he => regular.inward_rises (opens e he), ?_⟩
      intro e he
      obtain ⟨s, hs, rfl⟩ := List.mem_map.mp he
      refine ⟨rises_link.mpr ?_, by simp [link, Statement.Closes]⟩
      have known := (Item.Offered.name (offers s hs)).known regular
      rw [named, endNode_append (by decide), nodeNumber_append (by decide)]
      exact Nat.lt_succ_of_le (regular.number_le known (by simp [Item.names]))
  | early early _ _ _ => exact absurd (late.symm.trans early) (by decide)

end Builder.Regular

/-- The edges of a builder of the late edition lead to larger numbers, unless they close a loop. -/
structure Builder.Ordered (b : Builder) : Prop where
  late : b.edition = .late
  regular : b.Regular
  edges : ∀ s ∈ b.graph, s.Rises ∨ s.Closes

theorem Builder.Ordered.new : (Builder.new .late).Ordered := ⟨rfl, .new .late, by rintro s ⟨⟩⟩

/-- The builder is in order, and no edge of it that `b` has not got leads back. -/
def Grows (b c : Builder) : Prop := c.Ordered ∧ Extends b.graph c.graph

/-- The builder is in order, and the last edge of it may be the only one that leads back and that
`b` has not got. -/
def Loops (b c : Builder) : Prop := c.Ordered ∧ ∃ g s, Extends b.graph g ∧ c.graph = g ++ [s]

namespace Builder.Ordered

variable {b c d : Builder} (ordered : b.Ordered)

include ordered

theorem edges_of_extends {g : List Statement} (added : Extends b.graph g) :
    ∀ s ∈ g, s.Rises ∨ s.Closes := by
  intro s hs
  rcases added.mem hs with old | new
  · exact ordered.edges s old
  · exact .inl new.1

theorem reaches (reaches : Reaches (fun _ => True) b c) : Grows b c := by
  have added := ordered.regular.extends_of_reaches reaches
  exact ⟨⟨reaches.edition.trans ordered.late, reaches.regular ordered.regular,
    ordered.edges_of_extends added⟩, added⟩

theorem halts (halts : Halts (fun _ => True) b c) : Grows b c := by
  obtain ⟨d, reaches, change⟩ := halts
  have grows := ordered.reaches reaches
  have added := grows.2.trans (grows.1.regular.extends_of_change change)
  exact ⟨⟨change.edition.trans grows.1.late, change.regular grows.1.regular,
    ordered.edges_of_extends added⟩, added⟩

theorem turned {done : Prop} (reaches : Reaches (fun _ => True) b d)
    (turned : Leaves done d.Turns d c) : Loops b c := by
  have grows := ordered.reaches reaches
  obtain ⟨g, s, added, graph, closes⟩ := grows.1.regular.extends_of_turned grows.1.late turned
  have regular := Progress.regular grows.1.regular (T := fun _ => True) (.inr turned)
  obtain ⟨_, _, _, _, _, _, _, -, -, rfl⟩ := turned
  refine ⟨⟨grows.1.late, regular, ?_⟩, g, s, grows.2.trans added, graph⟩
  rw [graph]
  exact List.forall_mem_append.mpr
    ⟨grows.1.edges_of_extends added, List.forall_mem_singleton.mpr (.inr closes)⟩

theorem run {h : Hook} (other : h ≠ .leaveFor) (ts : List Tree) :
    Grows b (b.perform (h.run ts)).2 := by
  have evolves : Evolves (fun _ => True) b (h.run ts) :=
    run_evolves ordered.regular trivial other fun _ _ _ _ => trivial
  refine (evolves.weaken (fun _ hc => hc) (fun _ _ => ?_) fun _ => ?_).outcome .refl
  · exact ordered.reaches
  · exact ordered.halts

theorem leaveFor : Grows b (b.perform leaveFor).2 ∨ Loops b (b.perform leaveFor).2 := by
  refine Ensures.outcome (R := fun c => Grows b c ∨ Loops b c)
    ((leaveFor_evolves (T := fun _ => True) ordered.regular).weaken (fun _ hc => hc) ?_ ?_) rfl
  · rintro _ c ⟨d, reaches, turned⟩
    exact .inr (ordered.turned reaches turned)
  · rintro c (halts | ⟨d, reaches, turned⟩)
    · exact .inl (ordered.halts halts)
    · exact .inr (ordered.turned reaches turned)

/-- One event draws no edge that leads back, but for the last one when a loop is left. -/
theorem heed_event (e : Event) :
    Grows b (b.perform (heed [e])).2 ∨ Loops b (b.perform (heed [e])).2 ∧
      ∃ head ts, e = .leave head ts ∧ head.category = .forStmt ∧
        (b.perform (heed [e])).2 = (b.perform Move.leaveFor).2 := by
  rw [heed]
  cases hook : Hook.ofEvent? e with
  | none => exact .inl ⟨ordered, .refl _⟩
  | some p =>
      obtain ⟨h, ts⟩ := p
      have alone : (b.perform (h.run ts >>= fun _ => heed [])).2 = (b.perform (h.run ts)).2 := by
        rw [perform_bind]
        rcases b.perform (h.run ts) with ⟨m | u, c⟩ <;> rfl
      simp only [alone]
      by_cases leaving : h = .leaveFor
      · subst leaving
        obtain ⟨head, rfl, category⟩ := leaveFor_of_event hook
        exact ordered.leaveFor.imp_right fun loops => ⟨loops, head, ts, rfl, category, rfl⟩
      · exact .inl (ordered.run leaving ts)

end Builder.Ordered

/-- The builder that heeds the events is in order, and what closes a loop in its graph was put there
when a loop was left. -/
theorem heed_closes (es : List Event) :
    ((Builder.new .late).perform (heed es)).2.Ordered ∧
      ∀ s ∈ ((Builder.new .late).perform (heed es)).2.graph, s.Closes → EndsLoop es s := by
  induction es using List.reverseRecOn with
  | nil => exact ⟨Ordered.new, by rintro s ⟨⟩⟩
  | append_singleton es e ih =>
      obtain ⟨ordered, ih⟩ := ih
      have before : ∀ s ∈ ((Builder.new .late).perform (heed es)).2.graph, s.Closes →
          EndsLoop (es ++ [e]) s :=
        fun s hs closes => (ih s hs closes).mono (List.prefix_append es [e])
      have built := (go_heed none (Builder.new .late) es).1
      have free := (go_mishap_eq_none none (Builder.new .late) es).mpr
      rw [heed_append, perform_bind]
      generalize (Builder.new .late).perform (heed es) = r at ordered before built free
      obtain ⟨m | u, b⟩ := r
      · exact ⟨ordered, before⟩
      · have old {s : Statement} {g : List Statement} (kept : Extends b.graph g) (hs : s ∈ g)
            (closes : s.Closes) : EndsLoop (es ++ [e]) s :=
          before s ((kept.mem hs).resolve_right fun new => new.2 closes) closes
        rcases ordered.heed_event e with ⟨ordered', kept⟩ |
          ⟨⟨ordered', g, last, kept, graph⟩, head, ts, rfl, category, left⟩
        · exact ⟨ordered', fun s => old kept⟩
        · refine ⟨ordered', fun s hs closes => ?_⟩
          rw [show (b.perform (heed [Event.leave head ts])).2.graph = g ++ [last] from graph] at hs
          rcases List.mem_append.mp hs with early | late
          · exact old kept early closes
          · cases List.mem_singleton.mp late
            exact ⟨es, head, ts, List.prefix_rfl, category, free rfl, b, built, g, kept.isPrefix,
              left ▸ graph⟩

/-- At every moment of a walk, each edge of the graph leads to a larger number unless it closes a
loop, the others make up no cycle, and a cycle passes through an edge that was added last when a
loop was left. -/
theorem cycle_through_loop_end (t : Tree) (es : List Event) (reached : es <+: t.walk)
    (g : List Statement)
    (drawn : g <+: (Following.go none (Builder.new .late) es).builder.graph) :
    (∀ s ∈ g, s.Closes ∨ s.Rises) ∧
      Dot.Acyclic (g.filter fun s => ¬ s.Closes) ∧
      ∀ a route, Route g a a route → route ≠ [] → ∃ s ∈ route, s.Closes ∧ EndsLoop t.walk s := by
  have state := heed_closes es
  rw [← (go_heed none (Builder.new .late) es).1] at state
  have rise : ∀ s ∈ g, s.Closes ∨ s.Rises := fun s hs =>
    (state.1.edges s (drawn.subset hs)).symm
  refine ⟨rise, acyclic_of_rises fun s hs => ?_, fun a route r nonempty => ?_⟩
  · obtain ⟨member, free⟩ := List.mem_filter.mp hs
    exact (rise s member).resolve_left (of_decide_eq_true free)
  · by_contra none
    push Not at none
    have free : ∀ s ∈ route, ¬ s.Closes := fun s hs closes =>
      none s hs closes ((state.2 s (drawn.subset (r.mem hs)) closes).mono reached)
    have length := r.number_le fun s hs => (rise s (r.mem hs)).resolve_left (free s hs)
    exact nonempty (List.eq_nil_of_length_eq_zero (by omega))

def loopAlone : Tree := .func "f" [.forLoop "c" [.assign "x" "1"]]

/-- The graph of a loop has a cycle, from the loop to its block and back. -/
theorem loop_cycle : Route ((Builder.new .late).follow loopAlone).builder.graph "l2" "l2"
    [.edge "l2:s" "b3:n" [], .edge "b3:s" "l2:n" [("headport", "w"), ("tailport", "w")]] := by
  have forth : .edge "l2:s" "b3:n" [] ∈ ((Builder.new .late).follow loopAlone).builder.graph := by
    decide +kernel
  have back : .edge "b3:s" "l2:n" [("headport", "w"), ("tailport", "w")] ∈
      ((Builder.new .late).follow loopAlone).builder.graph := by
    decide +kernel
  have names : endNode "l2:s" = "l2" ∧ endNode "b3:n" = "b3" ∧ endNode "b3:s" = "b3" ∧
      endNode "l2:n" = "l2" := by
    decide +kernel
  have returns : Route ((Builder.new .late).follow loopAlone).builder.graph (endNode "b3:s")
      (endNode "l2:n") _ :=
    .step back (.stay _)
  rw [names.2.2.1, ← names.2.1] at returns
  have cycle := Route.step forth returns
  rwa [names.1, names.2.2.2] at cycle

theorem loop_cycle_through_end :
    loopAlone.walk <+: loopAlone.walk ∧
      ∃ s ∈ [Statement.edge "l2:s" "b3:n" [],
        .edge "b3:s" "l2:n" [("headport", "w"), ("tailport", "w")]],
        s.Closes ∧ EndsLoop loopAlone.walk s :=
  ⟨List.prefix_rfl, (cycle_through_loop_end loopAlone loopAlone.walk List.prefix_rfl
    ((Builder.new .late).follow loopAlone).builder.graph List.prefix_rfl).2.2 "l2" _
    loop_cycle nofun⟩

end GoFlow
