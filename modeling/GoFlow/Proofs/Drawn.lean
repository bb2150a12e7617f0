import GoFlow.Proofs.Steps
import Mathlib.Data.List.Range

/-! Plans that have been drawn. A plan adds its nodes, with consecutive numbers, and its strokes to
what there was before. -/

namespace GoFlow

namespace Plan

def append : Plan → Plan → Plan
  | done, q => q
  | block s text rest, q => block s text (rest.append q)
  | branch s condition yes no rest, q => branch s condition yes no (rest.append q)
  | loop s condition body dummy rest, q => loop s condition body dummy (rest.append q)

/-- The nodes of a plan, without its dummies. -/
def spots : Plan → List Spot
  | done => []
  | block s _ rest => s :: rest.spots
  | branch s _ yes no rest => s :: (yes.spots ++ (no.spots ++ rest.spots))
  | loop s _ body _ rest => s :: (body.spots ++ rest.spots)

variable {p q : Plan} {ports : List Port}

theorem append_assoc (p q r : Plan) : (p.append q).append r = p.append (q.append r) := by
  induction p with
  | done => rfl
  | block s text rest ih => simp [append, ih]
  | branch s condition yes no rest _ _ ih => simp [append, ih]
  | loop s condition body dummy rest _ ih => simp [append, ih]

theorem all_append : (p.append q).all = p.all ++ q.all := by
  induction p with
  | done => rfl
  | block s text rest ih => simp [append, all, ih]
  | branch s condition yes no rest _ _ ih => simp [append, all, ih]
  | loop s condition body dummy rest _ ih => simp [append, all, ih]

theorem spots_append : (p.append q).spots = p.spots ++ q.spots := by
  induction p with
  | done => rfl
  | block s text rest ih => simp [append, spots, ih]
  | branch s condition yes no rest _ _ ih => simp [append, spots, ih]
  | loop s condition body dummy rest _ ih => simp [append, spots, ih]

theorem exits_append : (p.append q).exits ports = q.exits (p.exits ports) := by
  induction p generalizing ports with
  | done => rfl
  | block s text rest ih => exact ih
  | branch s condition yes no rest _ _ ih => exact ih
  | loop s condition body dummy rest _ ih => exact ih

theorem strokes_append :
    (p.append q).strokes ports = p.strokes ports ++ q.strokes (p.exits ports) := by
  induction p generalizing ports with
  | done => rfl
  | block s text rest ih => simp [append, strokes, exits, ih]
  | branch s condition yes no rest _ _ ih => simp [append, strokes, exits, ih]
  | loop s condition body dummy rest _ ih => simp [append, strokes, exits, ih]

/-- The ports before a plan make a difference to its first node only. -/
theorem mem_strokes (nonempty : p ≠ done) {x : Stroke} (s : Spot) :
    x ∈ p.strokes ports ↔ x ∈ p.strokes [] ∨ x ∈ into ports (p.start s) := by
  have shift (y : Stroke) (first rest : List Stroke) :
      x ∈ y :: (first ++ rest) ↔ x ∈ y :: ([] ++ rest) ∨ x ∈ first := by
    simp only [List.mem_cons, List.mem_append, List.not_mem_nil]
    grind
  cases p with
  | done => exact absurd rfl nonempty
  | block => exact shift _ _ _
  | branch => exact shift _ _ _
  | loop => exact shift _ _ _

theorem solid_append : (p.append q).Solid ↔ p.Solid ∧ q.Solid := by
  induction p with
  | done => simp [append, Solid]
  | block s text rest ih => simp [append, Solid, ih, and_assoc]
  | branch s condition yes no rest _ _ ih => simp [append, Solid, ih, and_assoc]
  | loop s condition body dummy rest _ ih => simp [append, Solid, ih, and_assoc]

theorem spots_sublist (p : Plan) : p.spots.Sublist p.all := by
  induction p with
  | done => exact List.Sublist.refl []
  | block s text rest ih => exact ih.cons_cons s
  | branch s condition yes no rest ihYes ihNo ih =>
      exact (ihYes.append (ihNo.append ih)).cons_cons s
  | loop s condition body dummy rest ihBody ih =>
      exact (ihBody.append (ih.trans (List.sublist_append_right _ _))).cons_cons s

end Plan

/-- What a sketch has drawn. -/
structure Drawing where
  count : Nat
  nodes : List Spot
  strokes : List Stroke

def Sketch.drawing (d : Sketch) : Drawing := ⟨d.count, d.nodes, d.strokes⟩

/-- A node more, with edges from the ports. -/
def Drawing.put (s : Spot) (text shape : String) (ports : List Port) (a : Drawing) : Drawing :=
  ⟨a.count + 1, a.nodes ++ [s], a.strokes ++ .node s text shape :: into ports s⟩

/-- The nodes have the numbers that follow a number. -/
def Consecutive (n : Nat) (ss : List Spot) : Prop :=
  ss.map Spot.number = List.range' (n + 1) ss.length

namespace Consecutive

variable {n : Nat} {s : Spot} {ss ts : List Spot}

theorem nil : Consecutive n [] := rfl

theorem cons (first : s.number = n + 1) (rest : Consecutive (n + 1) ss) :
    Consecutive n (s :: ss) := by
  rw [Consecutive, List.map_cons, first, rest, List.length_cons, List.range'_succ]

theorem append (first : Consecutive n ss) (second : Consecutive (n + ss.length) ts) :
    Consecutive n (ss ++ ts) := by
  rw [Consecutive, List.map_append, first, second, List.length_append, ← List.range'_append_1,
    Nat.add_right_comm]

theorem bounds (h : Consecutive n ss) (member : s ∈ ss) :
    n < s.number ∧ s.number ≤ n + ss.length := by
  have number : s.number ∈ List.range' (n + 1) ss.length := by
    rw [← h]
    exact List.mem_map_of_mem member
  rw [List.mem_range'_1] at number
  omega

theorem rising (h : Consecutive n ss) : ss.Pairwise fun s t => s.number < t.number := by
  rw [← List.pairwise_map, h]
  exact List.pairwise_lt_range'

theorem nodup (h : Consecutive n ss) : ss.Nodup :=
  h.rising.imp fun less same => by
    rw [same] at less
    exact Nat.lt_irrefl _ less

end Consecutive

/-- The second drawing is the first one with the plan after the ports. -/
structure Drawn (p : Plan) (ports : List Port) (a b : Drawing) : Prop where
  solid : p.Solid
  numbers : Consecutive a.count p.all
  count : b.count = a.count + p.all.length
  nodes : b.nodes = a.nodes ++ p.spots
  strokes : ∀ x, x ∈ b.strokes ↔ x ∈ a.strokes ∨ x ∈ p.strokes ports

namespace Drawn

variable {p q yes no body : Plan} {ports : List Port} {a b c e : Drawing} {s : Spot}

theorem done (ports : List Port) (a : Drawing) : Drawn .done ports a a where
  solid := trivial
  numbers := rfl
  count := rfl
  nodes := (List.append_nil _).symm
  strokes := fun x => by simp [Plan.strokes]

theorem append (first : Drawn p ports a b) (second : Drawn q (p.exits ports) b c) :
    Drawn (p.append q) ports a c where
  solid := Plan.solid_append.mpr ⟨first.solid, second.solid⟩
  numbers := by
    rw [Plan.all_append]
    exact first.numbers.append (by rw [← first.count]; exact second.numbers)
  count := by rw [second.count, first.count, Plan.all_append, List.length_append, Nat.add_assoc]
  nodes := by rw [second.nodes, first.nodes, Plan.spots_append, List.append_assoc]
  strokes := fun x => by
    rw [second.strokes, first.strokes, Plan.strokes_append, List.mem_append, or_assoc]

theorem block (number : s.number = a.count + 1) (real : s.role ≠ .dummy) (text : String)
    (ports : List Port) : Drawn (.block s text .done) ports a (a.put s text "box" ports) where
  solid := ⟨real, trivial⟩
  numbers := .cons number .nil
  count := rfl
  nodes := rfl
  strokes := fun x => by simp [Drawing.put, Plan.strokes]

theorem branch {condition : String} (number : s.number = a.count + 1) (real : s.role ≠ .dummy)
    (nonemptyYes : yes ≠ .done) (nonemptyNo : no ≠ .done)
    (drawnYes : Drawn yes [] (a.put s condition "diamond" ports) b) (drawnNo : Drawn no [] b c) :
    Drawn (.branch s condition yes no .done) ports a { c with
      strokes := c.strokes ++
        [.edge (.south s) (yes.start s) [("label", "true"), ("headport", "n"), ("tailport", "w")],
          .edge (.south s) (no.start s) [("label", "false"), ("headport", "n"),
          ("tailport", "e")]] } where
  solid := ⟨real, nonemptyYes, nonemptyNo, drawnYes.solid, drawnNo.solid, trivial⟩
  numbers := by
    refine .cons number (drawnYes.numbers.append ?_)
    have later := drawnNo.numbers
    rw [drawnYes.count] at later
    exact later.append .nil
  count := by
    rw [drawnNo.count, drawnYes.count]
    simp only [Drawing.put, Plan.all, List.length_cons, List.length_append, List.length_nil]
    omega
  nodes := by
    rw [drawnNo.nodes, drawnYes.nodes]
    simp [Drawing.put, Plan.spots]
  strokes := fun x => by
    rw [List.mem_append, drawnNo.strokes, drawnYes.strokes]
    simp only [Drawing.put, Plan.strokes, List.mem_append, List.mem_cons, List.not_mem_nil]
    grind

/-- A loop leads to its body by an edge of its own, so that the body may be drawn with the port of
the loop before it or without. -/
theorem loop {condition : String} {dummy : Option Spot} {inner : List Port}
    (number : s.number = a.count + 1) (real : s.role ≠ .dummy) (nonempty : body ≠ .done)
    (same : inner = [.south s] ∨ inner = [])
    (drawn : Drawn body inner (a.put s ("for " ++ condition) "egg" ports) b)
    (hdummy : ∀ d ∈ dummy, d.number = b.count + 1 ∧ d.role = .dummy) :
    Drawn (.loop s condition body dummy .done) ports a
      ⟨b.count + dummy.toList.length, b.nodes, b.strokes ++ .edge (.south s) (body.start s) [] ::
        Plan.back (body.exits [.south s]) s dummy⟩ where
  solid := ⟨real, fun d hd => (hdummy d hd).2, nonempty, drawn.solid, trivial⟩
  numbers := by
    refine .cons number (drawn.numbers.append ?_)
    rw [← drawn.count]
    cases dummy with
    | none => exact .nil
    | some d => exact .cons (hdummy d rfl).1 .nil
  count := by
    rw [drawn.count]
    simp only [Drawing.put, Plan.all, List.length_cons, List.length_append, List.length_nil]
    omega
  nodes := by
    rw [drawn.nodes]
    simp [Drawing.put, Plan.spots]
  strokes := fun x => by
    have both : x ∈ body.strokes [.south s] ↔ _ := Plan.mem_strokes nonempty s
    rw [List.mem_append, drawn.strokes]
    simp only [into, List.map_cons, List.map_nil, List.mem_singleton] at both
    simp only [Drawing.put, Plan.strokes, List.mem_append, List.mem_cons, List.not_mem_nil]
    rcases same with rfl | rfl <;> grind

theorem rising (h : Drawn p ports a b) (sorted : a.nodes.Pairwise fun s t => s.number < t.number)
    (bounded : ∀ s ∈ a.nodes, s.number ≤ a.count) :
    (b.nodes.Pairwise fun s t => s.number < t.number) ∧ ∀ s ∈ b.nodes, s.number ≤ b.count := by
  have known {s : Spot} (hs : s ∈ p.spots) : a.count < s.number ∧ s.number ≤ b.count := by
    rw [h.count]
    exact h.numbers.bounds (p.spots_sublist.subset hs)
  rw [h.nodes]
  refine ⟨List.pairwise_append.mpr ⟨sorted, h.numbers.rising.sublist p.spots_sublist, ?_⟩, ?_⟩
  · intro s hs t ht
    have := bounded s hs
    have := (known ht).1
    omega
  · intro s hs
    rcases List.mem_append.mp hs with old | new
    · have := bounded s old
      have := h.count
      omega
    · exact (known new).2

end Drawn

end GoFlow
