import GoFlow.Proofs.Naming
import GoFlow.Proofs.Sketch
import Mathlib.Data.List.Basic

/-! The texts that a sketch stands for, and the builder that has them. Different nodes have
different names, so that whatever a builder finds out by comparing names or their first letters, a
sketch finds out by comparing nodes or their roles. -/

namespace GoFlow

open Dot (Statement)

namespace Role

def letters : Role → String
  | entry => "f"
  | block => "b"
  | yes => "t"
  | no => "e"
  | condition => "if"
  | loop => "l"
  | dummy => "d"

theorem lettered (r : Role) : Lettered r.letters := by
  cases r <;> decide

theorem letters_injective : Function.Injective letters := by
  intro r q h
  cases r <;> cases q <;> first | rfl | exact absurd h (by decide)

end Role

namespace Spot

def name (s : Spot) : String := s.role.letters ++ toString s.number

theorem number_name (s : Spot) : nodeNumber s.name = s.number :=
  nodeNumber_append s.role.lettered s.number

theorem colon_not_mem (s : Spot) : ':' ∉ s.name.toList :=
  colon_not_mem_append s.role.lettered s.number

theorem name_injective : Function.Injective name := by
  intro s t h
  have number : s.number = t.number := by rw [← s.number_name, h, t.number_name]
  have letters : s.role.letters = t.role.letters := by
    rw [name, name, number] at h
    exact (String.append_left_inj _).mp h
  cases s
  cases t
  simp only [Spot.mk.injEq]
  exact ⟨Role.letters_injective letters, number⟩

end Spot

namespace Port

/-- The name that a port has on a stack. -/
def label : Port → String
  | south s => s.name
  | east s => s.name ++ ":e"

theorem label_injective : Function.Injective label := by
  have apart (s t : Spot) : s.name ≠ t.name ++ ":e" := by
    intro h
    apply s.colon_not_mem
    rw [h, String.toList_append]
    exact List.mem_append_right _ (by decide)
  intro p q h
  cases p with
  | south s =>
      cases q with
      | south t => rw [Spot.name_injective h]
      | east t => exact absurd h (apart s t)
  | east s =>
      cases q with
      | south t => exact absurd h.symm (apart t s)
      | east t => rw [Spot.name_injective ((String.append_left_inj _).mp h)]

end Port

namespace Tip

mutual

def item : Tip → Item
  | .port p => .name p.label
  | .group xs => .group (items xs)

def items : List Tip → List Item
  | [] => []
  | x :: xs => x.item :: items xs

end

mutual

theorem item_injective : ∀ x y : Tip, x.item = y.item → x = y
  | .port p, .port q, h => by
      rw [item, item, Item.name.injEq] at h
      rw [Port.label_injective h]
  | .port _, .group _, h => by cases h
  | .group _, .port _, h => by cases h
  | .group xs, .group ys, h => by
      rw [item, item, Item.group.injEq] at h
      rw [items_injective xs ys h]

theorem items_injective : ∀ xs ys : List Tip, items xs = items ys → xs = ys
  | [], [], _ => rfl
  | [], _ :: _, h => by cases h
  | _ :: _, [], h => by cases h
  | x :: xs, y :: ys, h => by
      rw [items, items, List.cons.injEq] at h
      rw [item_injective x y h.1, items_injective xs ys h.2]

end

theorem items_eq_map (xs : List Tip) : items xs = xs.map item := by
  induction xs with
  | nil => rfl
  | cons x xs ih => rw [items, ih, List.map_cons]

theorem item_inj {x y : Tip} : x.item = y.item ↔ x = y := ⟨item_injective x y, fun h => by rw [h]⟩

/-- The tip ends somewhere, and at no node beyond the number. -/
structure Sound (n : Nat) (x : Tip) : Prop where
  ends : x.ports ≠ []
  known : ∀ p ∈ x.ports, p.spot.number ≤ n

theorem Sound.mono {m n : Nat} {x : Tip} (h : x.Sound m) (le : m ≤ n) : x.Sound n :=
  ⟨h.ends, fun p hp => (h.known p hp).trans le⟩

theorem sound_port {n : Nat} {p : Port} (h : p.spot.number ≤ n) : (Tip.port p).Sound n :=
  ⟨by simp [ports], by simpa [ports] using h⟩

theorem portsAll_eq (xs : List Tip) : portsAll xs = xs.flatMap ports := by
  induction xs with
  | nil => rfl
  | cons x xs ih => rw [portsAll, ih, List.flatMap_cons]

theorem sound_group {n : Nat} {xs : List Tip} (nonempty : xs ≠ []) (h : ∀ x ∈ xs, x.Sound n) :
    (Tip.group xs).Sound n := by
  obtain ⟨y, hy⟩ := List.exists_mem_of_ne_nil xs nonempty
  refine ⟨?_, ?_⟩
  · rw [ports, portsAll_eq]
    intro none
    exact (h y hy).ends (List.flatMap_eq_nil_iff.mp none y hy)
  · intro p hp
    rw [ports, portsAll_eq, List.mem_flatMap] at hp
    obtain ⟨x, hx, hp⟩ := hp
    exact (h x hx).known p hp

theorem ports_join (x y : Tip) : (x.join y).ports = x.ports ++ y.ports := by
  cases x <;> cases y <;> simp [join, ports, portsAll_eq]

theorem sound_join {n : Nat} {x y : Tip} (hx : x.Sound n) (hy : y.Sound n) :
    (x.join y).Sound n := by
  refine ⟨?_, ?_⟩
  · rw [ports_join]
    exact fun none => hx.ends (List.append_eq_nil_iff.mp none).1
  · intro p hp
    rw [ports_join, List.mem_append] at hp
    exact hp.elim (hx.known p) (hy.known p)

theorem join_item (x y : Tip) : (x.join y).item = Move.joinEnds x.item y.item := by
  cases x <;> cases y <;> simp [join, item, Move.joinEnds, items_eq_map]

theorem addTo_item (x : Tip) (stack : List Tip) :
    (x.addTo stack).map item = x.item.addTo (stack.map item) := by
  cases stack with
  | nil => simp [addTo, Item.addTo, Item.isTop]
  | cons y ys =>
      have member : y.members.contains x = y.item.members.contains x.item := by
        cases y with
        | port p => rfl
        | group zs =>
            rw [members, item, Item.members, items_eq_map, Bool.eq_iff_iff]
            simp [item_inj]
      have same : (y == x) = (y.item == x.item) := by
        rw [Bool.eq_iff_iff]
        simp [item_inj]
      simp only [addTo, Item.addTo, List.map_cons, Item.isTop, member, same]
      split <;> rfl

theorem erase_item (x : Tip) (stack : List Tip) :
    (stack.erase x).map item = (stack.map item).erase x.item :=
  List.map_erase (fun y z h => item_injective y z h) stack

end Tip

namespace Role

/-- The letter with which the names of nodes begin. -/
def initial : Role → Char
  | entry => 'f'
  | block => 'b'
  | yes => 't'
  | no => 'e'
  | condition => 'i'
  | loop => 'l'
  | dummy => 'd'

end Role

/-- A label is longer than its first letter. -/
theorem Port.toList_label (p : Port) : ∃ c cs, p.label.toList = p.spot.role.initial :: c :: cs := by
  have digits : ∃ c cs, (toString p.spot.number).toList = c :: cs := by
    rw [toList_toString]
    exact List.exists_cons_of_ne_nil Nat.toDigits_ne_nil
  have name : ∃ c cs, p.spot.name.toList = p.spot.role.initial :: c :: cs := by
    obtain ⟨c, cs, h⟩ := digits
    rw [Spot.name, String.toList_append, h]
    cases p.spot.role <;> exact ⟨_, _, rfl⟩
  obtain ⟨c, cs, h⟩ := name
  cases p with
  | south s => exact ⟨c, cs, h⟩
  | east s =>
      refine ⟨c, cs ++ ":e".toList, ?_⟩
      rw [Port.label, String.toList_append, show s.name.toList = _ from h]
      rfl

theorem Tip.startsWith_item {n : Nat} {x : Tip} (sound : x.Sound n) (r : Role) :
    x.item.startsWith r.initial.toString = .ok (x.hasRole r) := by
  have single (c d : Char) : (Item.name c.toString == Item.name d.toString) = (c == d) := by
    rw [Bool.eq_iff_iff]
    simp
  cases x with
  | port p =>
      obtain ⟨c, cs, h⟩ := p.toList_label
      simp only [item, Item.startsWith, Item.unit, Item.units, h, List.map_cons,
        List.getElem?_cons_zero, Except.map, single, hasRole]
      cases p.spot.role <;> cases r <;> rfl
  | group xs =>
      cases xs with
      | nil => exact absurd rfl sound.ends
      | cons y ys =>
          have differs : (y.item == Item.name r.initial.toString) = false := by
            rw [beq_eq_false_iff_ne]
            intro same
            cases y with
            | group zs => cases same
            | port p =>
                obtain ⟨c, cs, h⟩ := p.toList_label
                rw [item, Item.name.injEq] at same
                rw [same] at h
                simp at h
          simp only [item, items, Item.startsWith, Item.unit, Item.units, List.getElem?_cons_zero,
            Except.map, hasRole, differs]

theorem Spot.startsWith_name (s : Spot) (r : Role) :
    (Item.name s.name).startsWith r.initial.toString = .ok (decide (s.role = r)) :=
  Tip.startsWith_item (x := .spot s) (Tip.sound_port (Nat.le_refl _)) r

/-- The end of an edge that begins at a port. -/
def Port.tail : Port → String
  | south s => s.name ++ ":" ++ "s"
  | east s => s.name ++ ":e"

def Stroke.statement : Stroke → Statement
  | node s text shape => .node s.name text shape
  | edge p s attributes => .edge p.tail (s.name ++ ":" ++ "n") attributes

namespace Sketch

/-- The nodes have rising numbers, up to the count, and the stacks hold nothing beyond it. -/
structure Numbered (d : Sketch) : Prop where
  rising : d.nodes.Pairwise fun s t => s.number < t.number
  bounded : ∀ s ∈ d.nodes, s.number ≤ d.count
  lasts : ∀ x ∈ d.lasts, x.Sound d.count
  ends : ∀ x ∈ d.ends, x.Sound d.count

/-- The builder has the texts of the sketch, and reads no declaration. -/
structure Encodes (d : Sketch) (b : Builder) : Prop where
  edition : b.edition = .late
  phase : b.phase = .none
  level : b.level = d.level
  count : b.count = d.count
  held : b.held = d.held
  nodes : b.nodes = d.nodes.map Spot.name
  ifLevels : b.ifLevels = d.branches.map Prod.fst
  ifs : b.ifs = d.branches.map Prod.snd
  forLevels : b.forLevels = d.loops
  firsts : b.firsts = d.firsts.map fun s => .name s.name
  lasts : b.lasts = d.lasts.map Tip.item
  ends : b.ends = d.ends.map Tip.item
  graph : b.graph = d.strokes.map Stroke.statement
  numbered : d.Numbered

theorem encodes_new : Encodes {} (Builder.new .late) where
  edition := rfl
  phase := rfl
  level := rfl
  count := rfl
  held := rfl
  nodes := rfl
  ifLevels := rfl
  ifs := rfl
  forLevels := rfl
  firsts := rfl
  lasts := rfl
  ends := rfl
  graph := rfl
  numbered := ⟨.nil, by rintro s ⟨⟩, by rintro x ⟨⟩, by rintro x ⟨⟩⟩

theorem mem_of_next? {d : Sketch} {s t : Spot} (h : d.next? s = some t) :
    s ∈ d.nodes ∧ t ∈ d.nodes := by
  refine ⟨?_, List.mem_of_getElem? h⟩
  by_contra absent
  rw [next?, List.idxOf_eq_length absent, List.getElem?_eq_none (Nat.le_succ _)] at h
  cases h

theorem next?_lt {d : Sketch} (rising : d.nodes.Pairwise fun s t => s.number < t.number)
    {s t : Spot} (next : d.next? s = some t) : s.number < t.number := by
  have member := (mem_of_next? next).1
  have here := List.idxOf_lt_length_of_mem member
  rw [next?] at next
  have there := (List.getElem?_eq_some_iff.mp next).1
  have le := List.pairwise_iff_getElem.mp rising _ _ here there (Nat.lt_succ_self _)
  rw [List.getElem_idxOf] at le
  rwa [(List.getElem?_eq_some_iff.mp next).2] at le

end Sketch

theorem idxOf?_map_name {nodes : List Spot} {s : Spot} (member : s ∈ nodes) :
    (nodes.map Spot.name).idxOf? s.name = some (nodes.idxOf s) := by
  induction nodes with
  | nil => cases member
  | cons t ts ih =>
      rw [List.map_cons, List.idxOf?_cons, List.idxOf_cons]
      by_cases same : t = s
      · subst same
        simp
      · have differs : t.name ≠ s.name := fun h => same (Spot.name_injective h)
        have later := ih ((List.mem_cons.mp member).resolve_left (Ne.symm same))
        simp [beq_eq_false_iff_ne.mpr same, differs, later]

end GoFlow
