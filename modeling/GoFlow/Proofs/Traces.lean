import GoFlow.Proofs.Acyclic
import GoFlow.Proofs.Drawing
import GoFlow.Proofs.Outline
import Mathlib.Data.List.Nodup

/-! Paths through a graph. In the graph of a source whose functions have structured bodies, the
paths from the entry of a function to its exit are the traces of its body. -/

namespace GoFlow

open Dot (Statement endNode Route)

namespace Plan

variable {E : Option String → Spot → Spot → Prop} {p : Plan} {next : Spot}

theorem start_mem (nonempty : p ≠ done) (s : Spot) : p.start s ∈ p.all := by
  cases p with
  | done => exact absurd rfl nonempty
  | _ => exact List.mem_cons_self

/-- Edges to other nodes make no difference to a plan. -/
theorem Wired.restrict {R : Spot → Prop} (wired : p.Wired E next) (inside : ∀ s ∈ p.all, R s)
    (after : R next) : p.Wired (fun l s t => E l s t ∧ R t) next := by
  have start (q : Plan) (k : Spot) (hq : ∀ s ∈ q.all, R s) (hk : R k) : R (q.start k) := by
    by_cases last : q = done
    · rw [last]
      exact hk
    · exact hq _ (start_mem last k)
  have narrow {l : Option String} {s t : Spot} {A : Prop} (h : E l s t ↔ A) (within : A → R t) :
      E l s t ∧ R t ↔ A := by
    rw [h, and_iff_left_of_imp within]
  induction p generalizing next with
  | done => trivial
  | block s text rest ih =>
      obtain ⟨real, edges, wired⟩ := wired
      simp only [all, List.forall_mem_cons] at inside
      exact ⟨real, fun l t => narrow (edges l t) fun h => h.2 ▸ start rest next inside.2 after,
        ih wired inside.2 after⟩
  | branch s condition yes no rest ihYes ihNo ih =>
      obtain ⟨real, edges, nonemptyYes, nonemptyNo, wiredYes, wiredNo, wired⟩ := wired
      simp only [all, List.forall_mem_cons, List.forall_mem_append] at inside
      obtain ⟨own, insideYes, insideNo, insideRest⟩ := inside
      have afterwards := start rest next insideRest after
      refine ⟨real, fun l t => narrow (edges l t) fun h => ?_, nonemptyYes, nonemptyNo,
        ihYes wiredYes insideYes afterwards, ihNo wiredNo insideNo afterwards,
        ih wired insideRest after⟩
      rcases h with ⟨_, rfl⟩ | ⟨_, rfl⟩
      · exact start yes s insideYes own
      · exact start no s insideNo own
  | loop s condition body dummy rest ihBody ih =>
      obtain ⟨real, edges, nonempty, wiredBody, back, wired⟩ := wired
      simp only [all, List.forall_mem_cons, List.forall_mem_append, Option.mem_toList] at inside
      obtain ⟨own, insideBody, insideDummy, insideRest⟩ := inside
      have turn : R (dummy.getD s) := by
        cases dummy with
        | none => exact own
        | some d => exact insideDummy d rfl
      refine ⟨real, fun l t => narrow (edges l t) fun h => ?_, nonempty,
        ihBody wiredBody insideBody turn, fun d hd => ⟨(back d hd).1, fun l t =>
          narrow ((back d hd).2 l t) fun h => h.2 ▸ own⟩, ih wired insideRest after⟩
      rcases h with ⟨_, rfl | rfl⟩
      · exact start body s insideBody own
      · exact start rest next insideRest after

end Plan

def Plan.labels : Plan → List (Spot × String × String)
  | done => []
  | block s text rest => (s, text, "box") :: rest.labels
  | branch s condition yes no rest =>
      (s, condition, "diamond") :: (yes.labels ++ (no.labels ++ rest.labels))
  | loop s condition body _ rest => (s, "for " ++ condition, "egg") :: (body.labels ++ rest.labels)

theorem Plan.node_mem_strokes {p : Plan} {ports : List Port} {s : Spot} {text shape : String} :
    .node s text shape ∈ p.strokes ports ↔ (s, text, shape) ∈ p.labels := by
  have edges (ports : List Port) (t : Spot) : .node s text shape ∉ into ports t := by
    simp [into]
  have back (ports : List Port) (t : Spot) (dummy : Option Spot) :
      .node s text shape ∉ Plan.back ports t dummy := by
    cases dummy <;> simp [Plan.back, edges]
  induction p generalizing ports with
  | done => simp [strokes, labels]
  | block _ _ _ ih => simp [strokes, labels, edges, ih]
  | branch _ _ _ _ _ ihYes ihNo ih => simp [strokes, labels, edges, ihYes, ihNo, ih]
  | loop _ _ _ _ _ ihBody ih => simp [strokes, labels, edges, back, ihBody, ih]

theorem Plan.labels_append (p q : Plan) : (p.append q).labels = p.labels ++ q.labels := by
  induction p with
  | done => rfl
  | block _ _ _ ih => simp [append, labels, ih]
  | branch _ _ _ _ _ _ _ ih => simp [append, labels, ih]
  | loop _ _ _ _ _ _ ih => simp [append, labels, ih]

namespace Outline

theorem labels_wholeAll (os : List Outline) :
    (wholeAll os).labels = os.flatMap fun o => o.whole.labels := by
  induction os with
  | nil => rfl
  | cons o os ih => rw [wholeAll, Plan.labels_append, ih, List.flatMap_cons]

theorem all_wholeAll (os : List Outline) : (wholeAll os).all = os.flatMap fun o => o.whole.all := by
  induction os with
  | nil => rfl
  | cons o os ih => rw [wholeAll, Plan.all_append, ih, List.flatMap_cons]

theorem wholeAll_append (os os' : List Outline) :
    wholeAll (os ++ os') = (wholeAll os).append (wholeAll os') := by
  induction os with
  | nil => rfl
  | cons o os ih => rw [List.cons_append, wholeAll, wholeAll, ih, Plan.append_assoc]

def all (o : Outline) : List Spot := o.whole.all

theorem mem_all {o : Outline} {s : Spot} :
    s ∈ o.all ↔ s = o.entry ∨ s ∈ o.plan.all ∨ s = o.exit := by
  simp [all, whole, Plan.all, Plan.all_append]

theorem leads_split {before after : Plan} {o : Outline} {q : Port} {l : Option String} {t : Spot} :
    Leads ((before.append (o.whole.append after)).strokes []) q l t ↔
      Leads (before.strokes []) q l t ∨ (q ∈ before.exits [] ∧ t = o.entry ∧ l = none) ∨
        o.plan.Out [.south o.entry] o.exit q l t ∨ Leads (after.strokes [.south o.exit]) q l t := by
  simp only [Plan.strokes_append, whole, Plan.strokes, Plan.exits, Plan.exits_append, leads_append,
    leads_node, leads_into, leads_nil, or_false, Plan.Out, or_assoc]

/-- The function is drawn: its nodes have the edges that its plan asks for. The exit leads to other
functions only. -/
structure DrawnIn (o : Outline) (S : List Stroke) : Prop where
  wired : o.plan.Wired (Joins S) o.exit
  entry : ∀ l t, Joins S l o.entry t ↔ l = none ∧ t = o.plan.start o.exit
  exit : ∀ l t, Joins S l o.exit t → t ∉ o.all
  nodup : o.all.Nodup
  roles : o.entry.role ≠ .dummy ∧ o.exit.role ≠ .dummy

/-- A function that is drawn among others, with no nodes in common, has edges of its own only, but
for those to its entry and from its exit. -/
theorem leads_own {S : List Stroke} {before after : Plan} {o : Outline}
    (strokes : ∀ x, x ∈ S ↔ x ∈ (before.append (o.whole.append after)).strokes [])
    (solidBefore : before.Solid) (solidAfter : after.Solid)
    (apart : ∀ s ∈ o.all, s ∉ before.all ∧ s ∉ after.all) {q : Port} (own : q.spot ∈ o.all)
    {l : Option String} {t : Spot} :
    Leads S q l t ↔ o.plan.Out [.south o.entry] o.exit q l t ∨
      q = .south o.exit ∧ Leads (after.strokes [.south o.exit]) q l t := by
  obtain ⟨notBefore, notAfter⟩ := apart _ own
  have split : Leads S q l t ↔ Leads ((before.append (o.whole.append after)).strokes []) q l t := by
    simp only [Leads, strokes]
  rw [split, leads_split]
  simp only [Plan.not_leads solidBefore notBefore, Plan.not_mem_exits notBefore,
    false_and, false_or]
  refine or_congr_right ⟨fun h => ⟨?_, h⟩, And.right⟩
  exact List.mem_singleton.mp ((Plan.leads_strokes solidAfter h).resolve_left notAfter).1

theorem drawnIn_of_mem {S : List Stroke} {os : List Outline}
    (strokes : ∀ x, x ∈ S ↔ x ∈ (wholeAll os).strokes []) (solid : (wholeAll os).Solid)
    (nodup : (wholeAll os).all.Nodup) {o : Outline} (member : o ∈ os) : o.DrawnIn S := by
  obtain ⟨early, late, rfl⟩ := List.append_of_mem member
  rw [wholeAll_append, wholeAll] at strokes solid nodup
  generalize wholeAll early = before at strokes solid nodup
  generalize wholeAll late = after at strokes solid nodup
  simp only [Plan.solid_append, whole, Plan.Solid, and_true] at solid
  obtain ⟨solidBefore, ⟨realEntry, solidPlan, realExit⟩, solidAfter⟩ := solid
  rw [Plan.all_append, Plan.all_append] at nodup
  have apart : ∀ s ∈ o.all, s ∉ before.all ∧ s ∉ after.all := fun s hs =>
    ⟨fun h => List.disjoint_of_nodup_append nodup h (List.mem_append_left _ hs),
      fun h => List.disjoint_of_nodup_append (List.Nodup.of_append_right nodup) hs h⟩
  have own : o.all.Nodup := List.Nodup.of_append_left (List.Nodup.of_append_right nodup)
  have leads {q : Port} (hq : q.spot ∈ o.all) {l : Option String} {t : Spot} :=
    leads_own strokes solidBefore solidAfter apart hq (l := l) (t := t)
  have inside {s : Spot} (hs : s ∈ o.plan.all) : s ∈ o.all := mem_all.mpr (.inr (.inl hs))
  have parts : o.entry ∉ o.plan.all ++ [o.exit] ∧ (o.plan.all ++ [o.exit]).Nodup := by
    simpa only [all, whole, Plan.all, Plan.all_append, List.nodup_cons] using own
  have entryPlan : o.entry ∉ o.plan.all := fun h => parts.1 (List.mem_append_left _ h)
  have entryExit : o.entry ≠ o.exit := fun h => parts.1 (List.mem_append_right _ (by simp [h]))
  have exitPlan : o.exit ∉ o.plan.all := fun h =>
    List.disjoint_of_nodup_append parts.2 h (List.mem_singleton_self _)
  have fresh : o.plan.Fresh [.south o.entry] := by
    refine ⟨List.Nodup.of_append_left parts.2, fun q hq => ?_⟩
    cases List.mem_singleton.mp hq
    exact entryPlan
  have exact : o.plan.Exact S [.south o.entry] o.exit := by
    intro q l t hq
    rw [leads (inside hq)]
    refine or_iff_left fun h => exitPlan ?_
    rwa [h.1] at hq
  refine ⟨Plan.wired_of_exact solidPlan fresh exact, fun l t => ⟨?_, ?_⟩, ?_, own,
    realEntry, realExit⟩
  · rintro ⟨q, hq, h⟩
    rcases (leads (mem_all.mpr (.inl hq))).mp h with out | ⟨rfl, _⟩
    · obtain ⟨_, rfl, rfl⟩ := (Plan.out_outside solidPlan (by rw [hq]; exact entryPlan)).mp out
      exact ⟨rfl, rfl⟩
    · exact absurd hq.symm entryExit
  · rintro ⟨rfl, rfl⟩
    exact ⟨.south o.entry, rfl,
      (leads (q := .south o.entry) (mem_all.mpr (.inl rfl))).mpr (.inl (Plan.out_start (by simp)))⟩
  · rintro l t ⟨q, hq, h⟩ inAll
    rcases (leads (mem_all.mpr (.inr (.inr hq)))).mp h with out | ⟨rfl, later⟩
    · obtain ⟨same, _⟩ := (Plan.out_outside solidPlan (by rw [hq]; exact exitPlan)).mp out
      cases List.mem_singleton.mp same
      exact entryExit hq
    · obtain ⟨_, _, start⟩ := (Plan.leads_strokes solidAfter later).resolve_left
        (apart _ (mem_all.mpr (.inr (.inr rfl)))).2
      rw [start o.exit] at inAll
      exact (apart _ inAll).2
        (Plan.start_mem (fun h => by rw [h] at later; exact leads_nil later) _)

def Steps (o : Outline) (S : List Stroke) (l : Option String) (s t : Spot) : Prop :=
  Joins S l s t ∧ t ∈ o.all

/-- The paths from the entry to the exit within the function are its traces. -/
theorem DrawnIn.tours {o : Outline} {S : List Stroke} (h : o.DrawnIn S) (vs : List Visit) :
    (∃ us, Tour (o.Steps S) o.exit none o.entry us ∧ seen us = vs) ↔
      ∃ trace, o.plan.Trace none trace ∧ vs = (none, o.entry) :: (trace ++ [(none, o.exit)]) := by
  have inside {s : Spot} (hs : s ∈ o.plan.all) : s ∈ o.all := mem_all.mpr (.inr (.inl hs))
  have exitIn : o.exit ∈ o.all := mem_all.mpr (.inr (.inr rfl))
  have wired : o.plan.Wired (o.Steps S) o.exit := h.wired.restrict (fun s => inside) exitIn
  have parts : o.entry ∉ o.plan.all ++ [o.exit] ∧ (o.plan.all ++ [o.exit]).Nodup := by
    simpa only [all, whole, Plan.all, Plan.all_append, List.nodup_cons] using h.nodup
  have start : o.plan.start o.exit ∈ o.all := by
    by_cases last : o.plan = .done
    · rw [last]
      exact exitIn
    · exact inside (Plan.start_mem last _)
  constructor
  · rintro ⟨us, tour, rfl⟩
    obtain ⟨_, _, us, rfl, ⟨joins, _⟩, tour⟩ := tour.forth fun same =>
      parts.1 (List.mem_append_right _ (by simp [same]))
    obtain ⟨rfl, rfl⟩ := (h.entry _ _).mp joins
    have outside : ∀ s ∈ o.plan.all, o.exit ≠ s := fun s hs same =>
      List.disjoint_of_nodup_append parts.2 (same ▸ hs) (List.mem_singleton_self _)
    obtain ⟨vs, ws, rfl, trace, tour⟩ := wired.passes us.length outside none us (Nat.le_refl _) tour
    rw [Plan.leaving_none] at tour
    refine ⟨seen vs, trace, ?_⟩
    cases tour with
    | stop => rw [seen_cons h.roles.1, seen_append, seen_cons h.roles.2]; rfl
    | step edge _ => exact absurd edge.2 (h.exit _ _ edge.1)
  · rintro ⟨trace, ht, rfl⟩
    obtain ⟨us, tour, same⟩ := ht.tour wired (by rw [Plan.leaving_none]; exact Tour.stop none)
    refine ⟨(none, o.entry) :: (us ++ [(none, o.exit)]),
      .step ⟨(h.entry _ _).mpr ⟨rfl, rfl⟩, start⟩ tour, ?_⟩
    rw [seen_cons h.roles.1, seen_append, same, seen_cons h.roles.2]
    rfl

end Outline

/-- The label of an edge, and the node to which it leads. -/
def Dot.Statement.arrival? : Statement → Option (Option String × String)
  | .edge _ head attributes => some (attributes.lookup "label", endNode head)
  | _ => none

/-- The nodes to which a route leads one after another, with the labels of the edges by which they
are entered. Dummies are passed over. -/
def Dot.visits (route : List Statement) : List (Option String × String) :=
  (route.filterMap Statement.arrival?).filter fun v => v.2.toList.head? ≠ some 'd'

/-- The route stays within the function. -/
def Outline.Covers (o : Outline) (route : List Statement) : Prop :=
  ∀ s ∈ route, ∀ v ∈ s.arrival?, ∃ t ∈ o.all, t.name = v.2

def Visit.named (v : Visit) : Option String × String := (v.1, v.2.name)

theorem Spot.head?_name (s : Spot) : s.name.toList.head? = some 'd' ↔ s.role = .dummy := by
  rw [name, String.toList_append]
  cases s.role <;> simp [Role.letters]

theorem visits_named {route : List Statement} {us : List Visit}
    (h : route.filterMap Dot.Statement.arrival? = us.map Visit.named) :
    Dot.visits route = (seen us).map Visit.named := by
  rw [Dot.visits, h, seen, List.filter_map]
  congr 1
  refine List.filter_congr fun v _ => ?_
  simp [Visit.named, Spot.head?_name]

theorem endNode_tail (p : Port) : endNode p.tail = p.spot.name := by
  cases p with
  | south s => exact endNode_port s.colon_not_mem "s"
  | east s =>
      have split : s.name ++ ":e" = s.name ++ ":" ++ "e" := by rw [String.append_assoc]; rfl
      rw [Port.tail, split, endNode_port s.colon_not_mem]
      rfl

theorem endNode_head (s : Spot) : endNode (s.name ++ ":" ++ "n") = s.name :=
  endNode_port s.colon_not_mem "n"

theorem arrival?_edge (tail : String) (s : Spot) (attributes : List (String × String)) :
    (Statement.edge tail (s.name ++ ":" ++ "n") attributes).arrival? =
      some (Visit.named (attributes.lookup "label", s)) := by
  rw [Dot.Statement.arrival?, endNode_head]
  rfl

theorem edge_mem_statements {S : List Stroke} {tail head : String}
    {attributes : List (String × String)} :
    .edge tail head attributes ∈ S.map Stroke.statement ↔
      ∃ p t, .edge p t attributes ∈ S ∧ tail = p.tail ∧ head = t.name ++ ":" ++ "n" := by
  constructor
  · intro h
    obtain ⟨x, hx, same⟩ := List.mem_map.mp h
    cases x with
    | node => cases same
    | edge p t a =>
        cases same
        exact ⟨p, t, hx, rfl, rfl⟩
  · rintro ⟨p, t, h, rfl, rfl⟩
    exact List.mem_map.mpr ⟨_, h, rfl⟩

theorem node_mem_statements {S : List Stroke} {name text shape : String} :
    .node name text shape ∈ S.map Stroke.statement ↔ ∃ s, .node s text shape ∈ S ∧
      s.name = name := by
  constructor
  · intro h
    obtain ⟨x, hx, same⟩ := List.mem_map.mp h
    cases x with
    | edge => cases same
    | node s _ _ =>
        cases same
        exact ⟨s, hx, rfl⟩
  · rintro ⟨s, h, rfl⟩
    exact List.mem_map.mpr ⟨_, h, rfl⟩

theorem tour_of_route {o : Outline} {S : List Stroke} {a b : String} {route : List Statement}
    (r : Route (S.map Stroke.statement) a b route) (covers : o.Covers route) {s z : Spot}
    (begins : a = s.name) (ends : b = z.name) (l : Option String) :
    ∃ us, Tour (o.Steps S) z l s ((l, s) :: us) ∧
      route.filterMap Dot.Statement.arrival? = us.map Visit.named := by
  induction r generalizing s l with
  | stay a =>
      cases Spot.name_injective (begins.symm.trans ends)
      exact ⟨[], .stop l, rfl⟩
  | @step tail head c attributes route edge rest ih =>
      obtain ⟨p, t, member, rfl, rfl⟩ := edge_mem_statements.mp edge
      rw [endNode_tail] at begins
      obtain ⟨first, later⟩ := List.forall_mem_cons.mp covers
      obtain ⟨u, inside, same⟩ := first _ (arrival?_edge _ _ _)
      rw [Spot.name_injective same] at inside
      obtain ⟨us, tour, visits⟩ := ih later (endNode_head t) ends (attributes.lookup "label")
      refine ⟨(attributes.lookup "label", t) :: us,
        .step ⟨⟨p, Spot.name_injective begins, attributes, member, rfl⟩, inside⟩ tour, ?_⟩
      rw [List.filterMap_cons, arrival?_edge, visits, List.map_cons]

theorem route_of_tour {o : Outline} {S : List Stroke} {s z : Spot} {l : Option String}
    {vs : List Visit} (tour : Tour (o.Steps S) z l s vs) :
    ∃ us route, vs = (l, s) :: us ∧ Route (S.map Stroke.statement) s.name z.name route ∧
      o.Covers route ∧ route.filterMap Dot.Statement.arrival? = us.map Visit.named := by
  induction tour with
  | stop l => exact ⟨[], [], rfl, .stay _, nofun, rfl⟩
  | @step l l' s t vs edge _ ih =>
      obtain ⟨us, route, rfl, rest, covers, visits⟩ := ih
      obtain ⟨⟨p, rfl, attributes, member, rfl⟩, inside⟩ := edge
      rw [← endNode_head] at rest
      have first := Route.step (edge_mem_statements.mpr ⟨p, t, member, rfl, rfl⟩) rest
      rw [endNode_tail] at first
      refine ⟨_, _, rfl, first, List.forall_mem_cons.mpr ⟨?_, covers⟩, ?_⟩
      · intro v hv
        rw [arrival?_edge, Option.mem_some_iff] at hv
        exact ⟨t, inside, by rw [← hv]; rfl⟩
      · rw [List.filterMap_cons, arrival?_edge, visits, List.map_cons]

theorem Outline.DrawnIn.routes {o : Outline} {S : List Stroke} (h : o.DrawnIn S)
    (vs : List (Option String × String)) :
    (∃ route, Route (S.map Stroke.statement) o.entry.name o.exit.name route ∧ o.Covers route ∧
      Dot.visits route = vs) ↔
      ∃ trace, o.plan.Trace none trace ∧ vs = (trace ++ [(none, o.exit)]).map Visit.named := by
  constructor
  · rintro ⟨route, r, covers, rfl⟩
    obtain ⟨us, tour, visits⟩ := tour_of_route r covers rfl rfl none
    obtain ⟨trace, ht, same⟩ := (h.tours _).mp ⟨_, tour, rfl⟩
    rw [seen_cons h.roles.1, List.cons.injEq] at same
    exact ⟨trace, ht, by rw [visits_named visits, same.2]⟩
  · rintro ⟨trace, ht, rfl⟩
    obtain ⟨us, tour, same⟩ := (h.tours _).mpr ⟨trace, ht, rfl⟩
    obtain ⟨ws, route, rfl, r, covers, visits⟩ := route_of_tour tour
    rw [seen_cons h.roles.1, List.cons.injEq] at same
    exact ⟨route, r, covers, by rw [visits_named visits, same.2]⟩

/-- The graph has just the nodes of the functions, and the routes from the entry of a function to
its exit that stay within the function are the traces of its body. -/
structure Depicts (g : List Statement) (os : List Outline) : Prop where
  distinct : (os.flatMap Outline.all).Nodup
  nodes : ∀ name text shape, .node name text shape ∈ g ↔
    ∃ o ∈ os, ∃ s, (s, text, shape) ∈ o.whole.labels ∧ s.name = name
  routes : ∀ o ∈ os, ∀ vs : List (Option String × String),
    (∃ route, Route g o.entry.name o.exit.name route ∧ o.Covers route ∧ Dot.visits route = vs) ↔
      ∃ trace, o.plan.Trace none trace ∧ vs = (trace ++ [(none, o.exit)]).map Visit.named

/-- Walking a tree whose functions have structured bodies is completed, and gives a graph of
them. -/
theorem structured_depicted (t : Tree) (fs : List Function) (shown : Shows t fs)
    (paired : ∀ e ∈ t.walk, e.Assigns fun names values => values = names)
    (structured : ∀ f ∈ fs, f.body.Structured true) :
    ((Builder.new .late).follow t).mishap = none ∧
      ∃ os, os.map Outline.function = fs ∧
      Depicts ((Builder.new .late).follow t).builder.graph os := by
  have fits : Fits t.walk := fits_of_paired paired
  obtain ⟨os, d, drew, shows, drawn⟩ := Sketch.Idle.drawsAll (.inl ⟨rfl, rfl⟩) fs
    fun f hf => ⟨structured f hf, shown.merged fits f hf⟩
  obtain ⟨completed, encodes⟩ := shown.follow fits
  have strokes : ∀ x, x ∈ d.strokes ↔ x ∈ (Outline.wholeAll os).strokes [] := fun x =>
    (drawn.strokes x).trans (or_iff_right List.not_mem_nil)
  have nodup := drawn.numbers.nodup
  refine ⟨completed.mpr (by rw [drew]; rfl), os, shows, ?_⟩
  rw [(encodes d drew).graph]
  refine ⟨?_, fun name text shape => ?_, fun o ho =>
    (Outline.drawnIn_of_mem strokes drawn.solid nodup ho).routes⟩
  · rwa [Outline.all_wholeAll] at nodup
  · rw [node_mem_statements]
    simp only [strokes, Plan.node_mem_strokes, Outline.labels_wholeAll, List.mem_flatMap]
    exact ⟨fun ⟨s, ⟨o, ho, h⟩, same⟩ => ⟨o, ho, s, h, same⟩,
      fun ⟨o, ho, s, h, same⟩ => ⟨s, ⟨o, ho, h⟩, same⟩⟩

section

open GoFlow.Tree

/-- A loop around an if statement, at the beginning of the first function: the number of the loop is
the level of its block, and the body ends at two nodes. -/
def loopAroundIf : Tree :=
  of .sourceFile [func "f" [forLoop "c" [ifElse "d" [assign "x" "1"] [assign "x" "2"]]]]

def loopAroundIfBody : Body :=
  .loop "c" (.branch "d" (.run "x = 1 \n" .done) (.block (.run "x = 2 \n" .done)) .done) .done

theorem loopAroundIf_shows : Shows loopAroundIf [⟨"f", loopAroundIfBody⟩] :=
  .intro rfl (.declares (.func "f" (.braces (.forLoop "c" (.braces (.ifElse "d"
    (.braces (.assign "x" "1" .close)) (.braces (.assign "x" "2" .close)) .close)) .close))) .none)

theorem loopAroundIf_depicted :
    loopAroundIfBody.Structured true ∧ ((Builder.new .late).follow loopAroundIf).mishap = none ∧
      ∃ os, os.map Outline.function = [⟨"f", loopAroundIfBody⟩] ∧
        Depicts ((Builder.new .late).follow loopAroundIf).builder.graph os := by
  have structured : loopAroundIfBody.Structured true := by
    simp [loopAroundIfBody, Body.Structured, Body.IsRun]
  exact ⟨structured, structured_depicted _ _ loopAroundIf_shows (by decide +kernel)
    (by simpa using structured)⟩

end

end GoFlow
