import GoFlow.Proofs.Completion
import GoFlow.Proofs.Trades

/-! Loops within loops. A body in which loops are nested to any depth, outside if statements, can be
drawn; what is drawn leads to new nodes only, and every new node is connected with one made before
it, unless the number of a loop happens to be the level of its block. -/

namespace GoFlow

open Sketch

/-- Runs, if statements as in a structured body and loops, which may hold loops themselves. -/
def Body.Layered : Body → Prop
  | .done => True
  | .run _ rest => rest.Layered
  | .branch _ yes no rest =>
      (yes.Structured false ∧ (yes.IsRun ∨ yes.endsInBranch = true)) ∧
        (∃ text, no = .block (.run text .done)) ∧ rest.Layered
  | .loop _ body rest => (body.Layered ∧ body ≠ .done) ∧ rest.Layered

namespace Plan

variable {p : Plan} {ports : List Port} {q : Port} {s t : Spot} {l : Option String}

theorem head_mem (solid : p.Solid) (h : Leads (p.strokes ports) q l t) : t ∈ p.all := by
  induction p generalizing ports with
  | done => exact absurd h leads_nil
  | block s text rest ih =>
      simp only [strokes, leads_node, leads_append, leads_into] at h
      rcases h with ⟨_, rfl, _⟩ | later
      · exact List.mem_cons_self
      · exact List.mem_cons_of_mem _ (ih solid.2 later)
  | branch s condition yes no rest ihYes ihNo ih =>
      simp only [strokes, leads_node, leads_append, leads_into, leads_edge] at h
      obtain ⟨_, nonemptyYes, nonemptyNo, solidYes, solidNo, solid⟩ := solid
      have yesStart := start_mem nonemptyYes s
      have noStart := start_mem nonemptyNo s
      simp only [all, List.mem_cons, List.mem_append]
      grind
  | loop s condition body dummy rest ihBody ih =>
      simp only [strokes, leads_node, leads_append, leads_into, leads_edge] at h
      obtain ⟨_, _, nonempty, solidBody, solid⟩ := solid
      have bodyStart := start_mem nonempty s
      simp only [all, List.mem_cons, List.mem_append]
      rcases h with ⟨_, rfl, _⟩ | inside | ⟨_, rfl, _⟩ | returns | later
      · exact .inl rfl
      · exact .inr (.inl (ihBody solidBody inside))
      · exact .inr (.inl bodyStart)
      · obtain ⟨_, ⟨_, rfl⟩ | ⟨_, _, _, rfl⟩⟩ := leads_back.mp returns
        · cases dummy with
          | none => exact .inl rfl
          | some d => exact .inr (.inr (.inl List.mem_cons_self))
        · exact .inl rfl
      · exact .inr (.inr (.inr (ih solid later)))

theorem exits_mem_spots (nonempty : p ≠ done) (h : q ∈ p.exits ports) : q.spot ∈ p.spots := by
  induction p generalizing ports with
  | done => exact absurd rfl nonempty
  | block s text rest ih =>
      by_cases last : rest = done
      · subst last
        cases List.mem_singleton.mp h
        exact List.mem_cons_self
      · exact List.mem_cons_of_mem s (ih last h)
  | branch s condition yes no rest ihYes ihNo ih =>
      have side {part : Plan} (ih : part ≠ done → q ∈ part.exits [] → q.spot ∈ part.spots)
          (h : q ∈ part.exits []) : q.spot ∈ part.spots := by
        by_cases empty : part = done
        · subst empty
          cases h
        · exact ih empty h
      simp only [spots, List.mem_cons, List.mem_append]
      by_cases last : rest = done
      · subst last
        rcases List.mem_append.mp h with here | here
        · exact .inr (.inl (side ihYes here))
        · exact .inr (.inr (.inl (side ihNo here)))
      · exact .inr (.inr (.inr (ih last h)))
  | loop s condition body dummy rest _ ih =>
      simp only [spots, List.mem_cons, List.mem_append]
      by_cases last : rest = done
      · subst last
        cases List.mem_singleton.mp h
        exact .inl rfl
      · exact .inr (.inr (ih last h))

theorem exits_ne_nil (solid : p.Solid) (nonempty : p ≠ done) : p.exits ports ≠ [] := by
  induction p generalizing ports with
  | done => exact absurd rfl nonempty
  | block s text rest ih =>
      by_cases last : rest = done
      · subst last
        simp [exits]
      · exact ih solid.2 last
  | branch s condition yes no rest ihYes _ ih =>
      by_cases last : rest = done
      · subst last
        intro none
        exact ihYes solid.2.2.2.1 solid.2.1 (List.append_eq_nil_iff.mp none).1
      · exact ih solid.2.2.2.2.2 last
  | loop s condition body dummy rest _ ih =>
      by_cases last : rest = done
      · subst last
        simp [exits]
      · exact ih solid.2.2.2.2 last

/-- The node is the first one, or an edge from another node of the plan leads to it and closes no
loop. -/
def Entered (p : Plan) (s : Spot) : Prop :=
  s = p.start s ∨ ∃ q a, .edge q s a ∈ p.strokes [] ∧ ("headport", "w") ∉ a ∧ q.spot ∈ p.spots

theorem Entered.after (h : p.Entered s) (nonempty : p ≠ done) (before : q ∈ ports) :
    ∃ q' a, .edge q' s a ∈ p.strokes ports ∧ ("headport", "w") ∉ a ∧
      (q' = q ∨ q'.spot ∈ p.spots) := by
  rcases h with start | ⟨q', a, edge, plain, inside⟩
  · refine ⟨q, [], (mem_strokes nonempty s).mpr (.inr ?_), nofun, .inl rfl⟩
    rw [← start]
    exact List.mem_map_of_mem before
  · exact ⟨q', a, (mem_strokes nonempty s).mpr (.inl edge), plain, .inr inside⟩

theorem ne_done_of_mem (member : s ∈ p.spots) : p ≠ done := by
  rintro rfl
  cases member

theorem entered (solid : p.Solid) (member : s ∈ p.spots) : p.Entered s := by
  induction p with
  | done => cases member
  | block u text rest ih =>
      rcases List.mem_cons.mp member with rfl | later
      · exact .inl rfl
      · obtain ⟨q, a, edge, plain, inside⟩ := (ih solid.2 later).after (ne_done_of_mem later)
          (List.mem_singleton_self (Port.south u))
        refine .inr ⟨q, a, by simp [strokes, edge], plain, List.mem_cons.mpr ?_⟩
        exact inside.imp_left fun same => by rw [same, Port.spot]
  | branch u condition yes no rest ihYes ihNo ih =>
      obtain ⟨_, nonemptyYes, nonemptyNo, solidYes, solidNo, solid⟩ := solid
      simp only [spots, List.mem_cons, List.mem_append] at member
      rcases member with rfl | inYes | inNo | later
      · exact .inl rfl
      · rcases ihYes solidYes inYes with start | ⟨q, a, edge, plain, inside⟩
        · rw [start_of_ne nonemptyYes s u] at start
          exact .inr ⟨.south u, [("label", "true"), ("headport", "n"), ("tailport", "w")],
            by simp [strokes, ← start], by decide, List.mem_cons_self⟩
        · exact .inr ⟨q, a, by simp [strokes, edge], plain, by simp [spots, inside]⟩
      · rcases ihNo solidNo inNo with start | ⟨q, a, edge, plain, inside⟩
        · rw [start_of_ne nonemptyNo s u] at start
          exact .inr ⟨.south u, [("label", "false"), ("headport", "n"), ("tailport", "e")],
            by simp [strokes, ← start], by decide, List.mem_cons_self⟩
        · exact .inr ⟨q, a, by simp [strokes, edge], plain, by simp [spots, inside]⟩
      · obtain ⟨q, exit⟩ :=
          List.exists_mem_of_ne_nil (yes.exits []) (exits_ne_nil solidYes nonemptyYes)
        obtain ⟨q', a, edge, plain, inside⟩ := (ih solid later).after (ne_done_of_mem later)
          (List.mem_append_left (no.exits []) exit)
        refine .inr ⟨q', a, by simp [strokes, edge], plain, ?_⟩
        rcases inside with rfl | inside
        · simp [spots, exits_mem_spots nonemptyYes exit]
        · simp [spots, inside]
  | loop u condition body dummy rest ihBody ih =>
      obtain ⟨_, _, nonempty, solidBody, solid⟩ := solid
      simp only [spots, List.mem_cons, List.mem_append] at member
      rcases member with rfl | inBody | later
      · exact .inl rfl
      · obtain ⟨q, a, edge, plain, inside⟩ := (ihBody solidBody inBody).after nonempty
          (List.mem_singleton_self (Port.south u))
        refine .inr ⟨q, a, by simp [strokes, edge], plain, List.mem_cons.mpr ?_⟩
        exact inside.imp (fun same => by rw [same, Port.spot]) (List.mem_append_left _)
      · obtain ⟨q, a, edge, plain, inside⟩ := (ih solid later).after (ne_done_of_mem later)
          (List.mem_singleton_self (Port.east u))
        refine .inr ⟨q, a, by simp [strokes, edge], plain, List.mem_cons.mpr ?_⟩
        exact inside.imp (fun same => by rw [same, Port.spot]) (List.mem_append_right _)

end Plan

namespace Sketch

variable {d d' d₁ : Sketch} {ports : List Port} {p : Plan} {below under : List Tip}

def tips (d : Sketch) : List Port := (d.ends.head?.map Tip.ports).getD []

def opening (d : Sketch) : List Port :=
  match d.lasts with
  | [] => []
  | x :: _ => if d.apart x then [] else d.tips

theorem opening_subset (d : Sketch) : d.opening ⊆ d.tips := by
  unfold opening
  split
  · exact List.nil_subset _
  · split
    · exact List.nil_subset _
    · exact List.Subset.refl _

/-- Nothing but blocks of loops is open in a function, and a statement may be drawn. -/
structure Outside (d : Sketch) : Prop where
  held : d.held = ""
  tidy : d.Tidy
  branches : d.branches = []
  last : ∃ x below, d.lasts = x :: below ∧ x.hasRole .condition = false
  known : ∀ y ∈ d.lasts, Known d.count y
  tail : d.tips ≠ []
  made : ∀ p ∈ d.tips, p.spot ∈ d.nodes
  loops : ∀ n ∈ d.loops.head?, d.level ≤ n
  low : d.level ≤ d.count

theorem Tidy.sorted (tidy : d.Tidy) : d.Sorted := ⟨tidy.rising, tidy.bounded, tidy.firsts_le⟩

theorem Outside.ends (h : d.Outside) : ∃ e under, d.ends = e :: under := by
  have tail := h.tail
  unfold tips at tail
  cases ends : d.ends with
  | nil => simp [ends] at tail
  | cons e under => exact ⟨e, under, rfl⟩

theorem opens_opening {x e : Tip} (lasts : d.lasts = x :: below) (ends : d.ends = e :: under) :
    ∃ below under, d.Opens d.opening below under ∧ ∀ y ∈ below, y ∈ d.lasts := by
  cases apart : d.apart x with
  | false =>
      refine ⟨below, under, ⟨x, below, lasts, .inl ⟨apart, rfl, e, ends, ?_⟩⟩, fun y hy => ?_⟩
      · simp [opening, lasts, apart, tips, ends]
      · exact lasts ▸ List.mem_cons_of_mem x hy
  | true =>
      refine ⟨x.addTo below, d.ends, ⟨x, below, lasts, .inr ⟨apart, rfl, rfl, ?_⟩⟩, fun y hy => ?_⟩
      · simp [opening, lasts, apart]
      · exact lasts ▸ List.mem_cons.mpr (mem_addTo hy)

theorem Outside.ready (h : d.Outside) :
    ∃ below under, d.Ready d.opening below under ∧ ∀ y ∈ below, y ∈ d.lasts := by
  obtain ⟨_, _, lasts, _⟩ := h.last
  obtain ⟨_, _, ends⟩ := h.ends
  obtain ⟨below, under, opens, old⟩ := opens_opening lasts ends
  exact ⟨below, under,
    ⟨h.held, h.tidy.sorted, noBranchAtLevel_of_nil h.branches, opens,
      fun y hy => h.known y (old y hy)⟩, old⟩

theorem Outside.lower (h : d.Outside) : d.lower.Outside where
  held := h.held
  tidy := h.tidy.mono rfl le_rfl (.refl _)
  branches := h.branches
  last := h.last
  known := h.known
  tail := h.tail
  made := h.made
  loops := fun n hn => by
    have := h.loops n hn
    change d.level - 1 ≤ n
    omega
  low := by
    have := h.low
    change d.level - 1 ≤ d.count
    omega

/-- The number of the innermost loop is not the level. -/
theorem Outside.opening_eq (h : d.Outside) (higher : ∀ n ∈ d.loops.head?, d.level < n) :
    d.opening = d.tips := by
  obtain ⟨x, below, lasts, condition⟩ := h.last
  have other : d.loops.head? ≠ some d.level :=
    fun same => absurd (higher d.level same) (Int.lt_irrefl _)
  have joined : d.apart x = false := by
    rw [apart, condition, (noBranchAtLevel_of_nil h.branches).beginsElse]
    simp [other]
  simp [opening, lasts, joined]

theorem Outside.opening_lower (h : d.Outside) : d.lower.opening = d.tips := by
  refine h.lower.opening_eq fun n hn => ?_
  have := h.loops n hn
  change d.level - 1 < n
  omega

/-- More has been drawn. The new edges lead to new nodes, from new nodes or from the ports. -/
structure Grown (ports : List Port) (d d' : Sketch) : Prop where
  count : d.count ≤ d'.count
  nodes : ∃ more, d'.nodes = d.nodes ++ more ∧ ∀ s ∈ more, d.count < s.number
  kept : ∀ x ∈ d.strokes, x ∈ d'.strokes
  edges : ∀ p t a, .edge p t a ∈ d'.strokes → .edge p t a ∈ d.strokes ∨
    d.count < t.number ∧ (p ∈ ports ∨ d.count < p.spot.number)

theorem Grown.trans {more : List Port} (first : Grown ports d d₁) (second : Grown more d₁ d')
    (new : ∀ p ∈ more, d.count < p.spot.number) : Grown ports d d' where
  count := first.count.trans second.count
  nodes := by
    obtain ⟨middle, nodes₁, new₁⟩ := first.nodes
    obtain ⟨last, nodes, new'⟩ := second.nodes
    refine ⟨middle ++ last, by rw [nodes, nodes₁, List.append_assoc], fun s hs => ?_⟩
    rcases List.mem_append.mp hs with early | late
    · exact new₁ s early
    · exact Nat.lt_of_le_of_lt first.count (new' s late)
  kept := fun x hx => second.kept x (first.kept x hx)
  edges := by
    intro p t a edge
    rcases second.edges p t a edge with old | ⟨head, tail⟩
    · exact first.edges p t a old
    · refine .inr ⟨Nat.lt_of_le_of_lt first.count head, .inr ?_⟩
      rcases tail with here | later
      · exact new p here
      · exact Nat.lt_of_le_of_lt first.count later

theorem Grown.mono {more : List Port} (h : Grown ports d d') (sub : ports ⊆ more) :
    Grown more d d' :=
  ⟨h.count, h.nodes, h.kept, fun p t a edge =>
    (h.edges p t a edge).imp_right (And.imp_right (.imp_left fun hp => sub hp))⟩

theorem grown_of_drawn (drawn : Drawn p ports d.drawing d'.drawing) : Grown ports d d' where
  count := by
    have : d'.count = d.count + p.all.length := drawn.count
    omega
  nodes := ⟨p.spots, drawn.nodes, fun s hs => (drawn.numbers.bounds (p.spots_sublist.subset hs)).1⟩
  kept := fun x hx => (drawn.strokes x).mpr (.inl hx)
  edges := by
    intro q t a edge
    rcases (drawn.strokes _).mp edge with old | new
    · exact .inl old
    · have leads : Leads (p.strokes ports) q (a.lookup "label") t := ⟨a, new, rfl⟩
      refine .inr ⟨(drawn.numbers.bounds (Plan.head_mem drawn.solid leads)).1, ?_⟩
      rcases Plan.leads_strokes drawn.solid leads with inside | ⟨before, _⟩
      · exact .inr (drawn.numbers.bounds inside).1
      · exact .inl before

/-- Each new node has an edge from a port or from a new node that closes no loop. -/
def Fed (ports : List Port) (d d' : Sketch) : Prop :=
  ∀ s ∈ d'.nodes, s ∈ d.nodes ∨ ∃ p a, .edge p s a ∈ d'.strokes ∧ ("headport", "w") ∉ a ∧
    (p ∈ ports ∨ p.spot ∈ d'.nodes ∧ d.count < p.spot.number)

theorem Fed.trans {more others : List Port} (first : Fed ports d d₁) (second : Fed more d₁ d')
    (count : d.count ≤ d₁.count) (grown : Grown others d₁ d')
    (made : ∀ p ∈ more, p.spot ∈ d₁.nodes ∧ d.count < p.spot.number) : Fed ports d d' := by
  obtain ⟨later, nodes, _⟩ := grown.nodes
  have kept {s : Spot} (hs : s ∈ d₁.nodes) : s ∈ d'.nodes := nodes ▸ List.mem_append_left later hs
  intro s hs
  rcases second s hs with early | ⟨p, a, edge, plain, before⟩
  · refine (first s early).imp_right ?_
    rintro ⟨p, a, edge, plain, before⟩
    exact ⟨p, a, grown.kept _ edge, plain, before.imp_right fun h => ⟨kept h.1, h.2⟩⟩
  · refine .inr ⟨p, a, edge, plain, .inr ?_⟩
    rcases before with here | ⟨member, new⟩
    · exact ⟨kept (made p here).1, (made p here).2⟩
    · exact ⟨member, Nat.lt_of_le_of_lt count new⟩

theorem fed_of_drawn (drawn : Drawn p ports d.drawing d'.drawing) (some : ports ≠ []) :
    Fed ports d d' := by
  intro s hs
  have nodes : d'.nodes = d.nodes ++ p.spots := drawn.nodes
  rw [nodes] at hs ⊢
  refine (List.mem_append.mp hs).imp_right fun new => ?_
  obtain ⟨port, before⟩ := List.exists_mem_of_ne_nil _ some
  obtain ⟨q, a, edge, plain, inside⟩ :=
    (Plan.entered drawn.solid new).after (Plan.ne_done_of_mem new) before
  refine ⟨q, a, (drawn.strokes _).mpr (.inr edge), plain, ?_⟩
  rcases inside with rfl | inside
  · exact .inl before
  · exact .inr ⟨List.mem_append_right _ inside,
      (drawn.numbers.bounds (p.spots_sublist.subset inside)).1⟩

/-- A statement, or several, have been drawn outside if statements. The loops, so many of them, have
left their nodes on the firsts. -/
structure Adds (n : Nat) (ports : List Port) (d d' : Sketch) : Prop where
  outside : d'.Outside
  fresh : d'.Fresh
  grown : Grown ports d d'
  loops : d'.loops = d.loops
  firsts : ∃ new, d'.firsts = new ++ d.firsts ∧ new.length = n ∧ ∀ s ∈ new, s.role = .loop ∧
    d.count < s.number
  tips : ∀ p ∈ d'.tips, d.count < p.spot.number
  top : ∀ y ∈ d'.lasts.head?, Beyond d.count y
  lasts : ∀ y ∈ d'.lasts, y ∈ d.lasts ∨ Beyond d.count y

theorem Adds.more {n : Nat} (h : Adds n ports d d') : d.count < d'.count := by
  obtain ⟨p, tip⟩ := List.exists_mem_of_ne_nil _ h.outside.tail
  exact Nat.lt_of_lt_of_le (h.tips p tip) (h.outside.tidy.bounded _ (h.outside.made p tip))

theorem Adds.trans {m n : Nat} {more : List Port} (first : Adds m ports d d₁)
    (second : Adds n more d₁ d') (sub : more ⊆ d₁.tips) : Adds (m + n) ports d d' where
  outside := second.outside
  fresh := second.fresh
  grown := first.grown.trans second.grown fun p hp => first.tips p (sub hp)
  loops := second.loops.trans first.loops
  firsts := by
    obtain ⟨early, firsts₁, length₁, new₁⟩ := first.firsts
    obtain ⟨late, firsts, length, new⟩ := second.firsts
    refine ⟨late ++ early, by rw [firsts, firsts₁, List.append_assoc], ?_, fun s hs => ?_⟩
    · rw [List.length_append, length, length₁, Nat.add_comm]
    rcases List.mem_append.mp hs with h | h
    · exact ⟨(new s h).1, first.more.trans (new s h).2⟩
    · exact new₁ s h
  tips := fun p hp => first.more.trans (second.tips p hp)
  top := fun y hy => beyond_mono (second.top y hy) first.grown.count
  lasts := fun y hy => (second.lasts y hy).elim (first.lasts y) fun new =>
    .inr (beyond_mono new first.grown.count)

theorem Adds.mono {n : Nat} {more : List Port} (h : Adds n ports d d') (sub : ports ⊆ more) :
    Adds n more d d' :=
  { h with grown := h.grown.mono sub }

theorem Adds.lower {n : Nat} (h : Adds n ports d d') : Adds n ports d d'.lower :=
  ⟨h.outside.lower, h.fresh.mono rfl (.refl _), ⟨h.grown.1, h.grown.2, h.grown.3, h.grown.4⟩,
    h.loops, h.firsts, h.tips, h.top, h.lasts⟩

theorem Adds.of_lower {n : Nat} (h : Adds n ports d.lower d') : Adds n ports d d' :=
  ⟨h.outside, h.fresh, ⟨h.grown.1, h.grown.2, h.grown.3, h.grown.4⟩, h.loops, h.firsts, h.tips,
    h.top, h.lasts⟩

theorem Outside.adds (h : d.Outside) (nonempty : p ≠ .done)
    (drawn : Drawn p ports d.drawing d'.drawing) (frame : Frame d.level d d')
    (endsAt : d'.EndsAt (p.exits ports) below under) (known : ∀ y ∈ below, Known d'.count y)
    (old : ∀ y ∈ below, y ∈ d.lasts ∨ Beyond d.count y) : Adds 0 ports d d' := by
  obtain ⟨x, lasts, xPorts, condition, _⟩ := endsAt.last
  obtain ⟨e, ends, ePorts⟩ := endsAt.tail
  obtain ⟨n, newest, statement, _⟩ := endsAt.newest
  have grown : Grown ports d d' := grown_of_drawn drawn
  have count : d'.count = d.count + p.all.length := drawn.count
  have nodes : d'.nodes = d.nodes ++ p.spots := drawn.nodes
  have exits {q : Port} (hq : q ∈ p.exits ports) :=
    drawn.numbers.bounds (Plan.mem_exits_of_ne nonempty hq)
  have tips : d'.tips = p.exits ports := by rw [Sketch.tips, ends, ← ePorts]; rfl
  have sorted := h.tidy.sorted.drawn drawn frame.firsts
  have tidy : d'.Tidy := by
    refine ⟨sorted.rising, sorted.bounded, frame.firsts ▸ h.tidy.falling, fun s hs => ?_⟩
    rw [nodes]
    exact List.mem_append_left _ (h.tidy.made s (frame.firsts ▸ hs))
  have beyond : Beyond d.count x := fun q hq => (exits (xPorts ▸ hq)).1
  have low := h.low
  refine ⟨⟨frame.held, tidy, frame.branches.trans h.branches, ⟨x, below, lasts, condition⟩, ?_, ?_,
    ?_, ?_, ?_⟩,
    ⟨n, newest, statement, ?_⟩, grown, frame.loops, ⟨[], frame.firsts, rfl, nofun⟩, ?_, ?_, ?_⟩
  · rw [lasts]
    exact List.forall_mem_cons.mpr ⟨fun q hq => count ▸ (exits (xPorts ▸ hq)).2, known⟩
  · rw [tips]
    exact Plan.exits_ne_nil drawn.solid nonempty
  · intro q hq
    rw [tips] at hq
    rw [nodes]
    exact List.mem_append_right _ (Plan.exits_mem_spots nonempty hq)
  · rw [frame.loops, frame.level]
    exact h.loops
  · rw [frame.level]
    omega
  · intro s hs
    rw [frame.firsts] at hs
    obtain ⟨rest, spots⟩ := Plan.spots_of_ne nonempty n
    rw [nodes, List.getLast?_append_of_ne_nil _ (by rw [spots]; simp)] at newest
    have new := (drawn.numbers.bounds (p.spots_sublist.subset (List.mem_of_getLast? newest))).1
    exact Nat.lt_of_le_of_lt (h.tidy.firsts_le s hs) new
  · rw [tips]
    exact fun q hq => (exits hq).1
  · rw [lasts]
    rintro y ⟨⟩
    exact beyond
  · rw [lasts]
    exact List.forall_mem_cons.mpr ⟨.inr beyond, old⟩

structure InBlock (l : Spot) (d d₁ : Sketch) : Prop where
  role : l.role = .loop
  number : l.number = d.count + 1
  outside : d₁.Outside
  drawing : ∃ text, d₁.drawing = d.drawing.put l text "egg" d.opening
  level : d₁.level = d.level + 1
  loops : d₁.loops = (l.number : Int) :: d.loops
  firsts : d₁.firsts = l :: d.firsts
  tips : d₁.tips = [.south l]
  last : ∃ below, d₁.lasts = .spot l :: below
  lasts : ∀ y ∈ d₁.lasts, y ∈ d.lasts ∨ y = .spot l

theorem Outside.entersLoop (h : d.Outside) (condition : String) :
    ∃ l d₁, (d.enterFor condition).bind enterBlock = some d₁ ∧ InBlock l d d₁ := by
  obtain ⟨below, under, ready, old⟩ := h.ready
  have entered := ready.opens.enterLoop h.held h.tidy.firsts_le condition
  obtain ⟨tidy, _⟩ := h.tidy.enterLoop entered
  have low := h.low
  refine ⟨⟨.loop, d.count + 1⟩, _, entered, rfl, rfl,
    ⟨h.held, tidy, h.branches, ⟨_, below, rfl, rfl⟩,
    known_push ready.known rfl, nofun, ?_, ?_, ?_⟩, ⟨_, rfl⟩, rfl, rfl, rfl, rfl, ⟨below, rfl⟩, ?_⟩
  · intro p hp
    cases List.mem_singleton.mp hp
    exact List.mem_append_right _ (List.mem_singleton_self _)
  · rintro n ⟨⟩
    change d.level + 1 ≤ ((d.count + 1 : Nat) : Int)
    omega
  · change d.level + 1 ≤ ((d.count + 1 : Nat) : Int)
    omega
  · exact List.forall_mem_cons.mpr ⟨.inr rfl, fun y hy => .inl (old y hy)⟩

theorem grown_of_put {s : Spot} {text shape : String}
    (drawing : d'.drawing = d.drawing.put s text shape ports) (number : s.number = d.count + 1) :
    Grown ports d d' := by
  have count : d'.count = d.count + 1 := congrArg Drawing.count drawing
  have strokes : d'.strokes = d.strokes ++ .node s text shape :: into ports s :=
    congrArg Drawing.strokes drawing
  refine ⟨by omega, ⟨[s], congrArg Drawing.nodes drawing, fun t ht => ?_⟩, fun x hx => ?_,
    fun p t a edge => ?_⟩
  · cases List.mem_singleton.mp ht
    omega
  · rw [strokes]
    exact List.mem_append_left _ hx
  · rw [strokes, List.mem_append, List.mem_cons] at edge
    rcases edge with old | ⟨⟨⟩⟩ | new
    · exact .inl old
    · obtain ⟨q, before, same⟩ := List.mem_map.mp new
      cases same
      exact .inr ⟨by omega, .inl before⟩

theorem fed_of_put {s : Spot} {text shape : String}
    (drawing : d'.drawing = d.drawing.put s text shape ports) (some : ports ≠ []) :
    Fed ports d d' := by
  have nodes : d'.nodes = d.nodes ++ [s] := congrArg Drawing.nodes drawing
  have strokes : d'.strokes = d.strokes ++ .node s text shape :: into ports s :=
    congrArg Drawing.strokes drawing
  obtain ⟨p, before⟩ := List.exists_mem_of_ne_nil _ some
  intro t ht
  rw [nodes, List.mem_append, List.mem_singleton] at ht
  refine ht.imp_right ?_
  rintro rfl
  refine ⟨p, [], ?_, nofun, .inl before⟩
  rw [strokes]
  exact List.mem_append_right _ (List.mem_cons_of_mem _ (List.mem_map_of_mem before))

theorem InBlock.grown {l : Spot} (h : InBlock l d d₁) : Grown d.opening d d₁ := by
  obtain ⟨_, drawing⟩ := h.drawing
  exact grown_of_put drawing h.number

/-- The edges that are drawn when a loop is left: one from the first to the node after it, and those
that lead back to the first. -/
theorem leaveFor_draws {s first : Spot} {n : Int} {loops : List Int} {rest : List Spot}
    {x e : Tip} {lasts ends : List Tip} (hloops : d.loops = n :: loops)
    (hfirsts : d.firsts = s :: rest) (next : d.next? s = some first)
    (hlasts : d.lasts = x :: lasts) (hends : d.ends = e :: ends) :
    ∃ d' more, d.leaveFor = some d' ∧ d'.held = d.held ∧ d'.level = d.level ∧
      d'.branches = d.branches ∧
      d'.loops = loops ∧ d'.lasts = (Tip.port (.east s)).addTo (lasts.erase x) ∧
      d'.ends = .port (.east s) :: ends ∧ d'.strokes = d.strokes ++ more ∧
      ∀ y ∈ more, ∃ p t a, y = .edge p t a ∧ (p = .south s ∧ t = first ∨
        (p ∈ x.ports ∨ d.count < p.spot.number) ∧ (t = s ∨ d.count < t.number)) := by
  have left := leaveFor_eq hloops hfirsts next hlasts hends
  obtain ⟨dummy, hdummy, closed, held, level, branches, kept⟩ := closeLoop_drawing x s { d with
    loops
    firsts := rest
    lasts := lasts.erase x
    strokes := d.strokes ++ [.edge (.south s) first []] }
  have strokes := congrArg Drawing.strokes closed
  rw [List.append_assoc] at strokes
  refine ⟨_, _, left, held, level, branches, kept, rfl, rfl, strokes, fun y hy => ?_⟩
  rcases List.mem_cons.mp hy with rfl | returns
  · exact ⟨_, _, _, rfl, .inl ⟨rfl, rfl⟩⟩
  · change y ∈ Plan.back x.ports s dummy at returns
    cases dummy with
    | none =>
        obtain ⟨p, hp, rfl⟩ := List.mem_map.mp returns
        exact ⟨_, _, _, rfl, .inr ⟨.inl hp, .inl rfl⟩⟩
    | some m =>
        have number : m.number = d.count + 1 := (hdummy m rfl).1
        rcases List.mem_append.mp returns with side | back
        · obtain ⟨p, hp, rfl⟩ := List.mem_map.mp side
          exact ⟨_, _, _, rfl, .inr ⟨.inl hp, .inr (by omega)⟩⟩
        · cases List.mem_singleton.mp back
          exact ⟨_, _, _, rfl, .inr ⟨.inr (number ▸ Nat.lt_succ_self _), .inl rfl⟩⟩

theorem addTo_top_mem (x : Tip) (stack : List Tip) :
    ∃ y rest, x.addTo stack = y :: rest ∧ x.ports ⊆ y.ports ∧ (y = x ∨ y ∈ stack) ∧ ∀ z ∈ rest,
      z ∈ stack := by
  cases stack with
  | nil => exact ⟨x, [], rfl, List.Subset.refl _, .inl rfl, nofun⟩
  | cons y ys =>
      rw [Tip.addTo]
      split
      · rename_i present
        refine ⟨y, ys, rfl, ?_, .inr List.mem_cons_self, fun z => List.mem_cons_of_mem y⟩
        rw [Bool.or_eq_true, List.contains_iff_mem, beq_iff_eq] at present
        rcases present with inside | rfl
        · cases y with
          | port q => cases inside
          | group xs =>
              intro p hp
              rw [Tip.ports, Tip.portsAll_eq]
              exact List.mem_flatMap.mpr ⟨x, inside, hp⟩
        · exact List.Subset.refl _
      · exact ⟨x, y :: ys, rfl, List.Subset.refl _, .inl rfl, fun z => id⟩

/-- The edges that are drawn when a loop is left, drawn after others. -/
theorem Grown.leaves {base : Sketch} {s first : Spot} {x : Tip} {more : List Stroke}
    (grown : Grown ports base d) (nodes : d'.nodes = d.nodes) (count : d.count ≤ d'.count)
    (strokes : d'.strokes = d.strokes ++ more)
    (edges : ∀ y ∈ more, ∃ p t a, y = .edge p t a ∧
      (p = .south s ∧ t = first ∨ (p ∈ x.ports ∨ d.count < p.spot.number) ∧
      (t = s ∨ d.count < t.number)))
    (new : base.count < s.number) (later : s.number < first.number) (top : Beyond base.count x) :
    Grown ports base d' := by
  refine ⟨grown.count.trans count, nodes ▸ grown.nodes, fun y hy => ?_, fun p t a edge => ?_⟩
  · rw [strokes]
    exact List.mem_append_left _ (grown.kept y hy)
  · rw [strokes] at edge
    rcases List.mem_append.mp edge with early | exit
    · exact grown.edges p t a early
    · obtain ⟨_, _, _, same, ⟨rfl, rfl⟩ | ⟨tail, head⟩⟩ := edges _ exit
      · cases same
        exact .inr ⟨new.trans later, .inr new⟩
      · cases same
        refine .inr ⟨?_, .inr (tail.elim (top p) (Nat.lt_of_le_of_lt grown.count))⟩
        rcases head with rfl | head
        · exact new
        · exact Nat.lt_of_le_of_lt grown.count head

namespace InBlock

variable {l : Spot} {d₂ : Sketch} {inner : List Port} {n : Nat}

/-- The firsts that the block of a loop has added, with that of the loop itself. The newest of them
is that of the loop unless there are loops in its block. -/
theorem firsts_inside (h : InBlock l d d₁) (inside : Adds n inner d₁ d₂) :
    ∃ (s : Spot) (new : List Spot), d₂.firsts = (s :: new) ++ d.firsts ∧ new.length = n ∧
      (n ≠ 0 → d₁.count < s.number) ∧
      ∀ t ∈ s :: new, t.role = .loop ∧ d.count < t.number := by
  have number := h.number
  have count := h.grown.count
  obtain ⟨new, firsts, length, newer⟩ := inside.firsts
  rw [h.firsts] at firsts
  have own : l.role = .loop ∧ d.count < l.number := ⟨h.role, by omega⟩
  have beyond : ∀ t ∈ new, t.role = .loop ∧ d.count < t.number :=
    fun t ht => ⟨(newer t ht).1, Nat.lt_of_le_of_lt count (newer t ht).2⟩
  cases new with
  | nil =>
      exact ⟨l, [], firsts, length, fun some => absurd length.symm some,
        List.forall_mem_cons.mpr ⟨own, nofun⟩⟩
  | cons s new =>
      refine ⟨s, new ++ [l], by simpa using firsts, by simpa using length,
        fun _ => (newer s List.mem_cons_self).2, fun t ht => ?_⟩
      rcases List.mem_append.mp (show t ∈ (s :: new) ++ [l] from ht) with h | h
      · exact beyond t h
      · cases List.mem_singleton.mp h
        exact own

theorem lasts_inside (h : InBlock l d d₁) (inside : Adds n inner d₁ d₂) :
    ∀ y ∈ d₂.lasts, y ∈ d.lasts ∨ Beyond d.count y := by
  intro y hy
  have number := h.number
  rcases inside.lasts y hy with early | late
  · refine (h.lasts y early).imp_right ?_
    rintro rfl
    exact beyond_spot (by omega)
  · exact .inr (beyond_mono late h.grown.count)

theorem grown_inside (h : InBlock l d d₁) (inside : Adds n inner d₁ d₂) (sub : inner ⊆ d₁.tips) :
    Grown d.opening d d₂ := by
  refine h.grown.trans inside.grown fun p hp => ?_
  have tip := sub hp
  rw [h.tips] at tip
  cases List.mem_singleton.mp tip
  exact h.number ▸ Nat.lt_succ_self _

/-- The loop whose block has been drawn is left. It is taken to begin at the newest of the
firsts. -/
theorem leaves (h : InBlock l d d₁) (before : d.Outside) (inside : Adds n inner d₁ d₂)
    (sub : inner ⊆ d₁.tips) (level : d₂.level = d.level) :
    ∃ d' s more, d₂.leaveFor = some d' ∧ s ∈ d₂.firsts ∧ Adds (n + 1) d.opening d d' ∧
      d'.level = d.level ∧
      d'.nodes = d₂.nodes ∧ d'.firsts = d₂.firsts ∧ d'.strokes = d₂.strokes ++ more ∧
      (∀ y ∈ more, ∃ p t a, y = .edge p t a ∧ (p = .south s ∨ t = s ∨ d₂.count < t.number)) ∧
      (n ≠ 0 → Grown inner d₁ d' ∧ ∀ p ∈ d'.tips, d₁.count < p.spot.number) := by
  obtain ⟨s, new, firsts, length, nested, newer⟩ := h.firsts_inside inside
  obtain ⟨role, number⟩ := newer s List.mem_cons_self
  have top : s ∈ d₂.firsts := by rw [firsts]; exact List.mem_cons_self
  obtain ⟨first, next⟩ := inside.outside.tidy.next inside.fresh top
  obtain ⟨x, lasts, hlasts, _⟩ := inside.outside.last
  obtain ⟨e, ends, hends⟩ := inside.outside.ends
  obtain ⟨d', more, left, held, level', branches, loops, lasts', ends', strokes, edges⟩ :=
    leaveFor_draws (inside.loops.trans h.loops) firsts next hlasts hends
  obtain ⟨tidy, fresh, _, back, _⟩ := inside.outside.tidy.leaveFor inside.fresh left
  obtain ⟨_, _, _, _, nodes, count, _⟩ := leaveFor_some left
  have made : s ∈ d'.nodes := tidy.made s (back ▸ top)
  have later := next?_lt inside.outside.tidy.rising next
  have newest : Beyond d₁.count x := inside.top x (by rw [hlasts]; rfl)
  have tips : d'.tips = [.east s] := by rw [Sketch.tips, ends']; rfl
  have east {m : Nat} (less : m < s.number) : Beyond m (.port (.east s)) := by
    intro p hp
    cases List.mem_singleton.mp hp
    exact less
  have old {y : Tip} (hy : y ∈ lasts.erase x) : y ∈ d₂.lasts :=
    hlasts ▸ List.mem_cons_of_mem x (List.mem_of_mem_erase hy)
  have grown := (h.grown_inside inside sub).leaves nodes count strokes edges number later
    (beyond_mono newest h.grown.count)
  refine ⟨d', s, more, left, top,
    ⟨⟨held.trans inside.outside.held, tidy, branches.trans inside.outside.branches,
    ?_, ?_, ?_, ?_, ?_, ?_⟩, fresh, grown, loops,
    ⟨s :: new, back.trans firsts, by rw [List.length_cons, length], newer⟩, ?_, ?_, ?_⟩,
    level'.trans level, nodes, back, strokes, ?_, fun some => ?_⟩
  · obtain ⟨y, rest, split, condition, _⟩ := addTo_east s role (lasts.erase x)
    exact ⟨y, rest, lasts'.trans split, condition⟩
  · intro y hy
    rw [lasts'] at hy
    rcases mem_addTo hy with rfl | early
    · intro p hp
      cases List.mem_singleton.mp hp
      exact tidy.bounded s made
    · exact known_mono (inside.outside.known y (old early)) count
  · rw [tips]
    nofun
  · rw [tips]
    rintro p hp
    cases List.mem_singleton.mp hp
    exact made
  · rw [loops, level', level]
    exact before.loops
  · have := before.low
    have := grown.count
    rw [level', level]
    omega
  · rw [tips]
    exact east number
  · -- An older tip on top of the lasts would have the port of a newer node.
    obtain ⟨y, rest, split, port, origin, _⟩ := addTo_top_mem (.port (.east s)) (lasts.erase x)
    rw [lasts', split]
    rintro z ⟨⟩
    rcases origin with rfl | early
    · exact east number
    · refine (h.lasts_inside inside y (old early)).resolve_left fun older => ?_
      have bound := before.known y older (.east s) (port List.mem_cons_self)
      exact absurd number (Nat.not_lt.mpr bound)
  · intro y hy
    rw [lasts'] at hy
    rcases mem_addTo hy with rfl | early
    · exact .inr (east number)
    · exact h.lasts_inside inside y (old early)
  · intro y hy
    obtain ⟨p, t, a, same, exit⟩ := edges y hy
    exact ⟨p, t, a, same, exit.imp And.left And.right⟩
  · refine ⟨inside.grown.leaves nodes count strokes edges (nested some) later newest, ?_⟩
    rw [tips]
    exact east (nested some)

end InBlock

/-- The number of the innermost loop is beyond the level, and so is what is made next. -/
structure Roomy (d : Sketch) : Prop where
  loops : ∀ n ∈ d.loops.head?, d.level < n
  low : d.level < d.count

theorem Adds.roomy {n : Nat} (added : Adds n ports d d') (level : d'.level = d.level)
    (low : d.level ≤ d.count) (loops : ∀ n ∈ d.loops.head?, d.level < n) : d'.Roomy where
  loops := by rw [added.loops, level]; exact loops
  low := by
    have := added.more
    rw [level]
    omega

theorem InBlock.roomy {l : Spot} (h : InBlock l d d₁) (roomy : d.Roomy) : d₁.Roomy := by
  have number := h.number
  have low := roomy.low
  have count : d₁.count = d.count + 1 := congrArg Drawing.count h.drawing.choose_spec
  refine ⟨?_, ?_⟩
  · rw [h.loops, h.level]
    rintro n ⟨⟩
    omega
  · rw [h.level]
    omega

theorem Outside.drawsRun (h : d.Outside) {text : String} (filled : text ≠ "") :
    ∃ d', (d.hold text).flush = some d' ∧ d'.level = d.level ∧ Adds 0 d.opening d d' ∧
      (d.opening ≠ [] → Fed d.opening d d') := by
  obtain ⟨below, under, ready, old⟩ := h.ready
  obtain ⟨s, d', flushed, drawn, frame, endsAt⟩ := ready.opens.drawsRun h.held filled
  have count : d'.count = d.count + 1 := drawn.count
  refine ⟨d', flushed, frame.level, h.adds (fun done => by cases done) drawn frame endsAt
    (fun y hy => ?_) fun y hy => .inl (old y hy), fed_of_drawn drawn⟩
  exact known_mono (ready.known y hy) (by omega)

theorem Outside.drawsBranch (h : d.Outside) {yes : Body} (asPlan : yes.DrawsAsPlan)
    (shape : yes.IsRun ∨ yes.endsInBranch = true) {text : String} (filled : text ≠ "")
    (condition : String) :
    ∃ d', drawIf condition yes (.block (.run text .done)) d = some d' ∧ d'.level = d.level ∧
      Adds 0 d.opening d d' ∧ (d.opening ≠ [] → Fed d.opening d d') := by
  obtain ⟨below, under, ready, old⟩ := h.ready
  obtain ⟨c, p, e, d', drew, _, drawn, frame, below', endsAt, _, known, older⟩ :=
    ready.drawsIf asPlan shape filled condition
  exact ⟨d', drew, frame.level,
      h.adds (fun done => by cases done) drawn frame endsAt known fun y hy =>
    (older y hy).imp_left (old y), fed_of_drawn drawn⟩

end Sketch

namespace Body

/-- The body begins with a loop in which there is another one. -/
def nestsFirst : Body → Bool
  | loop _ body _ => body.loopCount != 0
  | _ => false

def entry : Body → Sketch → List Port
  | run _ done, d => d.tips
  | _, d => d.opening

/-- Each node of the body will be connected with one before it: there is room, or the body stands in
no loop and does not begin with one in which there is another. -/
def Joined (b : Body) (d : Sketch) : Prop :=
  d.Roomy ∨ d.loops = [] ∧ d.level = 1 ∧ b.nestsFirst = false

/-- Outside if statements, the body is drawn wherever it stands. -/
def Layers (b : Body) : Prop :=
  ∀ d : Sketch, d.Outside → ∃ d', b.finish d = some d' ∧ d'.level = d.level - 1 ∧
    Adds b.loopCount (b.entry d) d d' ∧ (b.Joined d → Fed d.tips d d')

variable {b rest : Body} {d d₁ : Sketch}

theorem entry_run (text : String) (last : rest ≠ done) : (run text rest).entry d = d.opening := by
  cases rest with
  | done => exact absurd rfl last
  | _ => rfl

theorem entry_subset (b : Body) (d : Sketch) : b.entry d ⊆ d.tips := by
  unfold entry
  split
  · exact List.Subset.refl _
  · exact d.opening_subset

theorem Joined.higher (joined : b.Joined d) : ∀ n ∈ d.loops.head?, d.level < n := by
  rcases joined with roomy | ⟨loops, _⟩
  · exact roomy.loops
  · rw [loops]
    nofun

theorem Layers.after {n : Nat} (layers : rest ≠ done → rest.Layers)
    (count : b.loopCount = n + rest.loopCount) (first : Adds n (b.entry d) d d₁)
    (level : d₁.level = d.level) (low : d.level ≤ d.count) (fed : b.Joined d → Fed d.tips d d₁) :
    ∃ d', rest.finish d₁ = some d' ∧ d'.level = d.level - 1 ∧ Adds b.loopCount (b.entry d) d d' ∧
      (b.Joined d → Fed d.tips d d') := by
  rw [count]
  by_cases last : rest = done
  · subst last
    exact ⟨d₁.lower, finish_held first.outside.held, by rw [lower, level], first.lower, fed⟩
  · obtain ⟨d', finished, level', second, fedRest⟩ := layers last d₁ first.outside
    refine ⟨d', finished, level'.trans (by rw [level]), first.trans second (rest.entry_subset d₁),
      fun joined => ?_⟩
    have roomy := first.roomy level low joined.higher
    exact (fed joined).trans (fedRest (.inl roomy)) first.grown.count second.grown fun p hp =>
      ⟨first.outside.made p hp, first.tips p hp⟩

theorem Structured.loopCount : (b : Body) → b.Structured false → b.loopCount = 0
  | .done, _ => rfl
  | .run _ rest, structured => Structured.loopCount rest structured
  | .branch _ yes _ rest, ⟨⟨structuredYes, _⟩, ⟨_, hno⟩, structured⟩ => by
      subst hno
      simp only [Body.loopCount, Otherwise.loopCount, Structured.loopCount yes structuredYes,
        Structured.loopCount rest structured]
  | .loop .., structured => absurd structured.1 (by decide)

theorem Layered.structured : (b : Body) → b.Layered → b.loopCount = 0 → b.Structured false
  | .done, _, _ => trivial
  | .run _ rest, layered, free => Layered.structured rest layered free
  | .branch _ _ _ rest, ⟨yes, no, layered⟩, free =>
      ⟨yes, no, Layered.structured rest layered (Nat.eq_zero_of_add_eq_zero_left free)⟩
  | .loop .., _, free => nomatch free

/-- A loop of a function is drawn as a plan if there is no other in it. -/
theorem fed_of_plainLoop {body : Body} {condition : String} (outside : d.Outside)
    (structured : body.Structured false) (merged : body.Merged) (nonempty : body ≠ done)
    (loops : d.loops = []) (level : d.level = 1) (drew : drawFor condition body d = some d₁) :
    Fed d.tips d d₁ := by
  obtain ⟨below, under, ready, _⟩ := outside.ready
  have low := outside.low
  have within : d.Within 1 d.opening :=
    ⟨⟨below, under, ready⟩, level, outside.branches, loops, by omega⟩
  obtain ⟨l, p, dummy, d', drew', _, drawn, _⟩ :=
    within.drawsFor (body.drawsAsPlan structured merged) merged nonempty condition
  cases drew.symm.trans drew'
  have opening : d.opening = d.tips := outside.opening_eq (by rw [loops]; nofun)
  rw [opening] at drawn
  exact fed_of_drawn drawn outside.tail

theorem drawsLoop {body : Body} (layers : body.Layers) (layered : body.Layered)
    (merged : body.Merged) (nonempty : body ≠ done) (condition : String) (rest : Body)
    (outside : d.Outside) :
    ∃ d', drawFor condition body d = some d' ∧ d'.level = d.level ∧
      Adds (body.loopCount + 1) d.opening d d' ∧
      ((loop condition body rest).Joined d → Fed d.tips d d') := by
  obtain ⟨l, d₁, entered, block⟩ := outside.entersLoop condition
  obtain ⟨d₂, finished, level, inside, fed⟩ := layers d₁ block.outside
  obtain ⟨d', s, more, left, _, adds, level', nodes, _, strokes, _⟩ :=
    block.leaves outside inside (body.entry_subset d₁) (by rw [level, block.level]; omega)
  have drew : drawFor condition body d = some d' := drawFor_of_parts entered finished left
  refine ⟨d', drew, level', adds, ?_⟩
  rintro (roomy | ⟨loops, level, single⟩)
  · obtain ⟨_, drawing⟩ := block.drawing
    rw [outside.opening_eq roomy.loops] at drawing
    have first := fed_of_put drawing outside.tail
    have both : Fed d.tips d d₂ := by
      refine first.trans (fed (.inl (block.roomy roomy))) block.grown.count inside.grown fun p hp =>
        ?_
      refine ⟨block.outside.made p hp, ?_⟩
      rw [block.tips] at hp
      cases List.mem_singleton.mp hp
      exact block.number ▸ Nat.lt_succ_self _
    intro t ht
    rw [nodes] at ht ⊢
    refine (both t ht).imp_right ?_
    rintro ⟨p, a, edge, rest⟩
    exact ⟨p, a, strokes ▸ List.mem_append_left more edge, rest⟩
  · have free : body.loopCount = 0 := by simpa [nestsFirst] using single
    exact fed_of_plainLoop outside (Layered.structured body layered free) merged nonempty loops
      level drew

theorem layers : (b : Body) → b.Layered → b.Merged → b ≠ done → b.Layers
  | .done, _, _, nonempty => absurd rfl nonempty
  | .run text rest, layered, merged, _ => by
      intro d outside
      by_cases last : rest = done
      · subst last
        obtain ⟨d', flushed, level, adds, fed⟩ := outside.lower.drawsRun merged.1
        rw [outside.opening_lower] at adds fed
        exact ⟨d', (finish_single d text).trans flushed, level, adds.of_lower,
          fun _ => fed outside.tail⟩
      · obtain ⟨d₁, flushed, level, adds, fed⟩ := outside.drawsRun merged.1
        rw [← entry_run text last] at adds
        obtain ⟨d', finished, drawn⟩ :=
          Layers.after (b := run text rest) (rest.layers layered merged.2.2)
            (Nat.zero_add _).symm adds level outside.low fun joined => by
              rw [outside.opening_eq joined.higher] at fed
              exact fed outside.tail
        refine ⟨d', ?_, drawn⟩
        rw [finish_run text rest last merged, flushed]
        exact finished
  | .branch condition yes no rest, layered, merged, _ => by
      obtain ⟨⟨structuredYes, shapeYes⟩, ⟨text, rfl⟩, layered⟩ := layered
      obtain ⟨mergedYes, mergedNo, merged⟩ := merged
      intro d outside
      obtain ⟨d₁, drew, level, adds, fed⟩ :=
        outside.drawsBranch (yes.drawsAsPlan structuredYes mergedYes) shapeYes mergedNo.1 condition
      have count : (branch condition yes (.block (.run text .done)) rest).loopCount =
          0 + rest.loopCount := by
        simp only [loopCount, Otherwise.loopCount, Structured.loopCount yes structuredYes]
      obtain ⟨d', finished, drawn⟩ :=
        Layers.after (rest.layers layered merged) count adds level outside.low fun joined => by
          rw [outside.opening_eq joined.higher] at fed
          exact fed outside.tail
      refine ⟨d', ?_, drawn⟩
      rw [finish_branch, drew]
      exact finished
  | .loop condition body rest, layered, merged, _ => by
      obtain ⟨⟨layeredBody, nonempty⟩, layered⟩ := layered
      obtain ⟨mergedBody, merged⟩ := merged
      intro d outside
      obtain ⟨d₁, drew, level, adds, fed⟩ :=
        drawsLoop (body.layers layeredBody mergedBody nonempty) layeredBody
        mergedBody nonempty condition rest outside
      obtain ⟨d', finished, drawn⟩ :=
        Layers.after (b := loop condition body rest) (rest.layers layered merged)
          (Nat.add_right_comm _ _ _) adds level outside.low fed
      refine ⟨d', ?_, drawn⟩
      rw [finish_loop, drew]
      exact finished

end Body

end GoFlow
