import GoFlow.Proofs.Changes
import GoFlow.Proofs.Source
import Mathlib.Data.Finset.Card

/-! The names a builder of either edition gives away. Each number goes to one node, which is
declared once, or to one dummy, and the two ends of an edge are nodes or dummies. All of this holds
at every moment of a walk, also when the builder is stopped. -/

namespace GoFlow

open Dot (Statement endNode)
open Move

namespace Builder

/-- The ends of edges that no node is declared for. -/
def dummies (b : Builder) : Finset String :=
  ((b.graph.flatMap Statement.joins).filter (· ∉ b.nodes)).toFinset

theorem mem_dummies {b : Builder} {s : String} :
    s ∈ b.dummies ↔ (∃ e ∈ b.graph, s ∈ e.joins) ∧ s ∉ b.nodes := by
  simp [dummies]

/-- Each number up to the last one belongs to a node that is declared once, or to a dummy. -/
structure Accounted (ed : Edition) (b : Builder) : Prop extends Regular b where
  edition : b.edition = ed
  declared : b.graph.filterMap Statement.declares = b.nodes
  numbered : ∀ s ∈ b.dummies,
    ∃ k, s = "d" ++ toString k ∧ k ≤ b.count ∧ ∀ t ∈ b.nodes, nodeNumber t ≠ k
  counted : b.count = b.nodes.length + b.dummies.card
  declaredEarly : ed = .early → b.dummies = ∅

theorem Accounted.new (ed : Edition) : (Builder.new ed).Accounted ed where
  toRegular := .new ed
  edition := rfl
  declared := by cases ed <;> rfl
  numbered := by cases ed <;> rintro s ⟨⟩
  counted := by cases ed <;> rfl
  declaredEarly := by rintro ⟨⟩; rfl

/-- What is drawn between nodes makes no dummy. -/
theorem dummies_append {b c : Builder} {added : List Statement} (graph : c.graph = b.graph ++ added)
    (kept : b.nodes ⊆ c.nodes) (fresh : ∀ s ∈ b.dummies, s ∉ c.nodes)
    (joined : ∀ e ∈ added, ∀ s ∈ e.joins, s ∈ c.nodes) : c.dummies = b.dummies := by
  ext s
  constructor
  · intro hs
    obtain ⟨⟨e, he, he'⟩, unknown⟩ := mem_dummies.mp hs
    rcases List.mem_append.mp (graph ▸ he) with old | new
    · exact mem_dummies.mpr ⟨⟨e, old, he'⟩, fun node => unknown (kept node)⟩
    · exact absurd (joined e new s he') unknown
  · intro hs
    obtain ⟨⟨e, he, he'⟩, -⟩ := mem_dummies.mp hs
    exact mem_dummies.mpr ⟨⟨e, graph ▸ List.mem_append_left added he, he'⟩, fresh s hs⟩

namespace Regular

variable {b : Builder} (regular : b.Regular)

include regular

theorem endNode_mem {s : String} (offers : b.Offers s) : endNode s ∈ b.nodes :=
  ((Item.Offered.name offers).known regular).endNode_mem regular.named (by simp [Item.names])

theorem joins_link {s t : String} (tail : b.Offers s) (head : .name t ∈ b.firsts)
    (attributes : List (String × String)) : ∀ n ∈ (link s t attributes).joins, n ∈ b.nodes := by
  have head : b.Offers t := .inr ⟨t, head, .inl rfl⟩
  simp [regular.endNode_mem tail, regular.endNode_mem head]

theorem inward_joins {e : Statement} (inward : b.Inward e) :
    e.declares = none ∧ ∀ n ∈ e.joins, n ∈ b.nodes := by
  obtain ⟨s, t, attributes, first, node, -, -, rfl⟩ := inward
  have tail : b.Offers s := .inr ⟨s, first, .inl rfl⟩
  have head := (regular.named t node).endNode_eq
  exact ⟨rfl, by simp [regular.endNode_mem tail, head, node]⟩

end Regular

namespace Accounted

variable {ed : Edition} {b c : Builder} (accounted : b.Accounted ed)

include accounted

theorem draws (regular : c.Regular) (edition : c.edition = b.edition) (count : c.count = b.count)
    (nodes : c.nodes = b.nodes) {edges : List Statement} (graph : c.graph = b.graph ++ edges)
    (joined : ∀ e ∈ edges, e.declares = none ∧ ∀ s ∈ e.joins, s ∈ b.nodes) : c.Accounted ed := by
  have dummies : c.dummies = b.dummies := by
    refine dummies_append graph (nodes ▸ List.Subset.refl _) (fun s hs => ?_) fun e he => ?_
    · rw [nodes]
      exact (mem_dummies.mp hs).2
    · rw [nodes]
      exact (joined e he).2
  have none : edges.filterMap Statement.declares = [] :=
    List.filterMap_eq_nil_iff.mpr fun e he => (joined e he).1
  exact
    { regular with
      edition := edition.trans accounted.edition
      declared := by
        rw [graph, List.filterMap_append, accounted.declared, none, List.append_nil, nodes]
      numbered := by rw [dummies, nodes, count]; exact accounted.numbered
      counted := by rw [dummies, nodes, count]; exact accounted.counted
      declaredEarly := dummies ▸ accounted.declaredEarly }

theorem node (regular : c.Regular) (edition : c.edition = b.edition) (count : c.count = b.count + 1)
    {name text shape : String} (number : nodeNumber name = b.count + 1)
    (nodes : c.nodes = b.nodes ++ [name]) {edges : List Statement}
    (graph : c.graph = b.graph ++ .node name text shape :: edges)
    (joined : ∀ e ∈ edges, e.declares = none ∧ ∀ s ∈ e.joins, s ∈ c.nodes) : c.Accounted ed := by
  have fresh : name ∉ b.dummies := by
    intro member
    obtain ⟨k, rfl, le, -⟩ := accounted.numbered _ member
    rw [nodeNumber_append (by decide)] at number
    omega
  have dummies : c.dummies = b.dummies := by
    refine dummies_append graph (nodes ▸ List.subset_append_left _ _) (fun s hs => ?_) ?_
    · rw [nodes, List.mem_append, List.mem_singleton, not_or]
      exact ⟨(mem_dummies.mp hs).2, fun same => fresh (same ▸ hs)⟩
    · exact List.forall_mem_cons.mpr ⟨by rintro s ⟨⟩, fun e he => (joined e he).2⟩
  have none : edges.filterMap Statement.declares = [] :=
    List.filterMap_eq_nil_iff.mpr fun e he => (joined e he).1
  exact
    { regular with
      edition := edition.trans accounted.edition
      declared := by
        rw [graph, List.filterMap_append, accounted.declared, nodes, List.filterMap_cons, none]
        rfl
      numbered := by
        rw [dummies, nodes, count]
        intro s hs
        obtain ⟨k, same, le, apart⟩ := accounted.numbered s hs
        exact ⟨k, same, Nat.le_succ_of_le le,
          List.forall_mem_append.mpr ⟨apart, List.forall_mem_singleton.mpr (by omega)⟩⟩
      counted := by
        have counted := accounted.counted
        rw [dummies, nodes, count, List.length_append, List.length_singleton]
        omega
      declaredEarly := dummies ▸ accounted.declaredEarly }

theorem pass (regular : c.Regular) (late : b.edition = .late) (edition : c.edition = b.edition)
    (count : c.count = b.count + 1) (nodes : c.nodes = b.nodes) {edges : List Statement}
    (graph : c.graph = b.graph ++ edges) {dummy : String}
    (named : dummy = "d" ++ toString (b.count + 1))
    (joined : ∀ e ∈ edges, e.declares = none ∧ ∀ s ∈ e.joins, s ∈ b.nodes ∨ s = dummy)
    (used : ∃ e ∈ edges, dummy ∈ e.joins) : c.Accounted ed := by
  have number : nodeNumber dummy = b.count + 1 := named ▸ nodeNumber_append (by decide) _
  have undeclared : dummy ∉ b.nodes := by
    intro member
    have le := accounted.bounded _ member
    omega
  have fresh : dummy ∉ b.dummies := by
    intro member
    obtain ⟨k, rfl, le, -⟩ := accounted.numbered _ member
    rw [nodeNumber_append (by decide)] at number
    omega
  have dummies : c.dummies = insert dummy b.dummies := by
    ext s
    rw [Finset.mem_insert, mem_dummies, mem_dummies, graph, nodes]
    simp only [List.mem_append]
    constructor
    · rintro ⟨⟨e, old | new, hs⟩, apart⟩
      · exact .inr ⟨⟨e, old, hs⟩, apart⟩
      · exact .inl (((joined e new).2 s hs).resolve_left apart)
    · rintro (rfl | ⟨⟨e, old, hs⟩, apart⟩)
      · obtain ⟨e, he, hs⟩ := used
        exact ⟨⟨e, .inr he, hs⟩, undeclared⟩
      · exact ⟨⟨e, .inl old, hs⟩, apart⟩
  have none : edges.filterMap Statement.declares = [] :=
    List.filterMap_eq_nil_iff.mpr fun e he => (joined e he).1
  exact
    { regular with
      edition := edition.trans accounted.edition
      declared := by
        rw [graph, List.filterMap_append, accounted.declared, none, List.append_nil, nodes]
      numbered := by
        rw [dummies, nodes, count]
        intro s hs
        rcases Finset.mem_insert.mp hs with rfl | old
        · refine ⟨b.count + 1, named, Nat.le_refl _, ?_⟩
          intro t ht
          have le := accounted.bounded t ht
          omega
        · obtain ⟨k, same, le, apart⟩ := accounted.numbered s old
          exact ⟨k, same, Nat.le_succ_of_le le, apart⟩
      counted := by
        have counted := accounted.counted
        rw [dummies, nodes, count, Finset.card_insert_of_notMem fresh]
        omega
      declaredEarly := by
        rintro rfl
        exact absurd (late.symm.trans accounted.edition) (by decide) }

theorem change {T : String → Prop} {done : Prop} (change : Change T done b c) : c.Accounted ed := by
  have regular := change.regular accounted.toRegular
  have quiet (count : c.count = b.count) (nodes : c.nodes = b.nodes) (graph : c.graph = b.graph) :
      c.Accounted ed :=
    accounted.draws regular change.edition count nodes (graph.trans (List.append_nil _).symm)
      (by rintro e ⟨⟩)
  cases change with
  | aside same _ =>
      simp only [network, Prod.mk.injEq] at same
      exact quiet same.2.1 same.2.2.1 same.2.2.2.2.2.2
  | @node kind content shape name text lasts ends edges _ _ known _ _ named _ settles =>
      have number : nodeNumber name = b.count + 1 := by
        rw [named, nodeNumber_append (NodeName.lettered known)]
      refine accounted.node regular rfl rfl number rfl rfl fun e he => ?_
      obtain ⟨tail, top, s, hs, rfl⟩ := settles.mem.2.2 e he
      have member : tail ∈ b.ends := List.mem_of_head? top
      have known := (accounted.ends tail member).endNode_mem accounted.named hs
      have own : endNode name = name :=
        (regular.named name (List.mem_append_right _ List.mem_cons_self)).endNode_eq
      exact ⟨rfl, by simp [known, own]⟩
  | first _ => exact quiet rfl rfl rfl
  | last _ => exact quiet rfl rfl rfl
  | top _ => exact quiet rfl rfl rfl
  | branches left =>
      obtain ⟨_, _, _, _, edges, _, _, -, ⟨count, drew⟩, rfl⟩ := left
      exact accounted.draws regular rfl count rfl rfl fun e he =>
        accounted.inward_joins (drew e he)

theorem turned {done : Prop} (turned : Leaves done b.Turns b c) : c.Accounted ed := by
  have regular := accounted.toRegular.leaves turned Turns.count_le
  obtain ⟨_, _, _, _, _, _, _, -, drew, rfl⟩ := turned
  cases drew with
  | straight _ inward tail loop =>
      exact accounted.draws regular rfl rfl rfl rfl <| List.forall_mem_append.mpr
        ⟨fun e he => accounted.inward_joins (inward e he),
          List.forall_mem_singleton.mpr ⟨rfl, accounted.joins_link tail loop _⟩⟩
  | early _ inward tails loop =>
      refine accounted.draws regular rfl rfl rfl rfl <| List.forall_mem_append.mpr
        ⟨fun e he => accounted.inward_joins (inward e he), fun e he => ?_⟩
      obtain ⟨s, hs, rfl⟩ := List.mem_map.mp he
      exact ⟨rfl, accounted.joins_link (tails s hs) loop _⟩
  | @through inward tails dummy loop late opens named _ offers first =>
      have whole : endNode dummy = dummy := by rw [named, endNode_append (by decide)]
      have head : endNode loop ∈ b.nodes := accounted.endNode_mem (.inr ⟨loop, first, .inl rfl⟩)
      refine accounted.pass regular late rfl rfl rfl rfl named ?_ ?_
      · refine List.forall_mem_append.mpr
          ⟨List.forall_mem_append.mpr ⟨fun e he => ?_, fun e he => ?_⟩,
          List.forall_mem_singleton.mpr ⟨rfl, by simp [whole, head]⟩⟩
        · have joined := accounted.inward_joins (opens e he)
          exact ⟨joined.1, fun s hs => .inl (joined.2 s hs)⟩
        · obtain ⟨s, hs, rfl⟩ := List.mem_map.mp he
          exact ⟨rfl, by simp [whole, accounted.endNode_mem (offers s hs)]⟩
      · exact ⟨_, List.mem_append_right _ List.mem_cons_self, by simp [whole]⟩

theorem heed (es : List Event) : (b.perform (Move.heed es)).2.Accounted ed := by
  refine (heed_keeps (P := Accounted ed) (T := fun _ => True) trivial (.any es) accounted.toRegular
    (fun _ accounted progress => ?_) accounted).2
  exact progress.elim accounted.change accounted.turned

end Accounted

end Builder

open Builder

/-- At every moment of a walk, of either edition and however it ends: the nodes have different names
with rising numbers, the graph declares just them, and every end of an edge is a node or a dummy
with a number of its own. No number is given away twice, and the early edition makes no dummies. -/
theorem numbers_accounted_for (ed : Edition) (t : Tree) (n : Nat) :
    let b := (Following.go none (Builder.new ed) (t.walk.take n)).builder
    (b.nodes.Nodup ∧ (b.nodes.map nodeNumber).Pairwise (· < ·) ∧
        ∀ s ∈ b.nodes, nodeNumber s ≤ b.count) ∧
      b.graph.filterMap Statement.declares = b.nodes ∧
      (∀ e ∈ b.graph, ∀ s ∈ e.joins, s ∈ b.nodes ∨
        s ∈ b.dummies ∧ ∃ k, s = "d" ++ toString k ∧ ∀ node ∈ b.nodes, nodeNumber node ≠ k) ∧
      b.count = b.nodes.length + b.dummies.card ∧
      (ed = .early → b.dummies = ∅) := by
  intro b
  have accounted : b.Accounted ed := by
    have same : b = _ := (go_heed none (Builder.new ed) (t.walk.take n)).1
    rw [same]
    exact (Accounted.new ed).heed _
  refine ⟨⟨?_, ?_, accounted.bounded⟩, accounted.declared, ?_, accounted.counted,
    accounted.declaredEarly⟩
  · apply accounted.rising.imp
    rintro s _ less rfl
    exact Nat.lt_irrefl _ less
  · exact List.pairwise_map.mpr accounted.rising
  · intro e he s hs
    by_cases member : s ∈ b.nodes
    · exact .inl member
    · have dummy := Builder.mem_dummies.mpr ⟨⟨e, he, hs⟩, member⟩
      obtain ⟨k, same, -, apart⟩ := accounted.numbered s dummy
      exact .inr ⟨dummy, k, same, apart⟩

end GoFlow
