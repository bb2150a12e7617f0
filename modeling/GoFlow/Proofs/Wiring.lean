import GoFlow.Proofs.Plan
import Mathlib.Tactic.Tauto

/-! The strokes of a plan. What is drawn for a plan gives its nodes just the edges that the plan
asks for. -/

namespace GoFlow

def into (ports : List Port) (s : Spot) : List Stroke := ports.map fun p => .edge p s []

/-- There is an edge with the label, or without one. -/
def Leads (strokes : List Stroke) (p : Port) (l : Option String) (t : Spot) : Prop :=
  ∃ attributes, .edge p t attributes ∈ strokes ∧ attributes.lookup "label" = l

def Joins (strokes : List Stroke) (l : Option String) (s t : Spot) : Prop :=
  ∃ p, p.spot = s ∧ Leads strokes p l t

section Leads

variable {p : Port} {l : Option String} {t : Spot}

theorem leads_nil : ¬ Leads [] p l t := by
  rintro ⟨_, h, _⟩
  cases h

theorem leads_append {xs ys : List Stroke} :
    Leads (xs ++ ys) p l t ↔ Leads xs p l t ∨ Leads ys p l t := by
  simp only [Leads, List.mem_append, or_and_right, exists_or]

theorem leads_node {s : Spot} {text shape : String} {xs : List Stroke} :
    Leads (.node s text shape :: xs) p l t ↔ Leads xs p l t := by
  simp [Leads]

theorem leads_edge {q : Port} {u : Spot} {attributes : List (String × String)} {xs : List Stroke} :
    Leads (.edge q u attributes :: xs) p l t ↔
      (p = q ∧ t = u ∧ l = attributes.lookup "label") ∨ Leads xs p l t := by
  constructor
  · rintro ⟨a, h, rfl⟩
    rcases List.mem_cons.mp h with same | later
    · cases same
      exact .inl ⟨rfl, rfl, rfl⟩
    · exact .inr ⟨a, later, rfl⟩
  · rintro (⟨rfl, rfl, rfl⟩ | ⟨a, h, rfl⟩)
    · exact ⟨_, List.mem_cons_self, rfl⟩
    · exact ⟨a, List.mem_cons_of_mem _ h, rfl⟩

theorem leads_map {ports : List Port} {s : Spot} {attributes : List (String × String)} :
    Leads (ports.map fun q => .edge q s attributes) p l t ↔
      p ∈ ports ∧ t = s ∧ l = attributes.lookup "label" := by
  constructor
  · rintro ⟨a, h, rfl⟩
    obtain ⟨q, hq, same⟩ := List.mem_map.mp h
    cases same
    exact ⟨hq, rfl, rfl⟩
  · rintro ⟨h, rfl, rfl⟩
    exact ⟨_, List.mem_map.mpr ⟨p, h, rfl⟩, rfl⟩

theorem leads_into {ports : List Port} {s : Spot} :
    Leads (into ports s) p l t ↔ p ∈ ports ∧ t = s ∧ l = none :=
  leads_map

end Leads

namespace Plan

/-- The ports at which a plan ends, if it comes after other ports. -/
def exits : Plan → List Port → List Port
  | done, ports => ports
  | block s _ rest, _ => rest.exits [.south s]
  | branch _ _ yes no rest, _ => rest.exits (yes.exits [] ++ no.exits [])
  | loop s _ _ _ rest, _ => rest.exits [.east s]

/-- The way back to a loop. -/
def back (ports : List Port) (s : Spot) : Option Spot → List Stroke
  | none => ports.map fun p => .edge p s [("headport", "w"), ("tailport", "w")]
  | some d => into ports d ++ [.edge (.south d) s [("headport", "w"), ("tailport", "w")]]

/-- What is drawn for a plan that comes after some ports. -/
def strokes : Plan → List Port → List Stroke
  | done, _ => []
  | block s text rest, ports =>
      .node s text "box" :: (into ports s ++ rest.strokes [.south s])
  | branch s condition yes no rest, ports =>
      .node s condition "diamond" :: (into ports s ++ (yes.strokes [] ++ (no.strokes [] ++
        .edge (.south s) (yes.start s) [("label", "true"), ("headport", "n"), ("tailport", "w")] ::
        .edge (.south s) (no.start s) [("label", "false"), ("headport", "n"), ("tailport", "e")] ::
        rest.strokes (yes.exits [] ++ no.exits []))))
  | loop s condition body dummy rest, ports =>
      .node s ("for " ++ condition) "egg" :: (into ports s ++ (body.strokes [.south s] ++
        .edge (.south s) (body.start s) [] ::
        (back (body.exits [.south s]) s dummy ++ rest.strokes [.east s])))

/-- Branches and loops are not empty, and just the dummies are dummies. -/
def Solid : Plan → Prop
  | done => True
  | block s _ rest => s.role ≠ .dummy ∧ rest.Solid
  | branch s _ yes no rest =>
      s.role ≠ .dummy ∧ yes ≠ done ∧ no ≠ done ∧ yes.Solid ∧ no.Solid ∧ rest.Solid
  | loop s _ body dummy rest =>
      s.role ≠ .dummy ∧ (∀ d ∈ dummy, d.role = .dummy) ∧ body ≠ done ∧ body.Solid ∧ rest.Solid

/-- What is drawn for a plan, together with its edges to the node that follows. -/
def Out (p : Plan) (ports : List Port) (next : Spot) (q : Port) (l : Option String) (t : Spot) :
    Prop :=
  Leads (p.strokes ports) q l t ∨ q ∈ p.exits ports ∧ t = next ∧ l = none

variable {ports : List Port} {next s t : Spot} {q : Port} {l : Option String}

theorem out_done : done.Out ports next q l t ↔ q ∈ ports ∧ t = next ∧ l = none := by
  simp [Out, strokes, exits, leads_nil]

theorem out_block {text : String} {rest : Plan} :
    (block s text rest).Out ports next q l t ↔
      (q ∈ ports ∧ t = s ∧ l = none) ∨ rest.Out [.south s] next q l t := by
  simp only [Out, strokes, exits, leads_node, leads_append, leads_into, or_assoc]

theorem out_branch {condition : String} {yes no rest : Plan} :
    (branch s condition yes no rest).Out ports next q l t ↔
      (q ∈ ports ∧ t = s ∧ l = none) ∨ Leads (yes.strokes []) q l t ∨ Leads (no.strokes []) q l t ∨
        (q = .south s ∧ t = yes.start s ∧ l = some "true") ∨
        (q = .south s ∧ t = no.start s ∧ l = some "false") ∨
        rest.Out (yes.exits [] ++ no.exits []) next q l t := by
  simp only [Out, strokes, exits, leads_node, leads_append, leads_into, leads_edge, or_assoc]
  rfl

theorem out_loop {condition : String} {body rest : Plan} {dummy : Option Spot} :
    (loop s condition body dummy rest).Out ports next q l t ↔
      (q ∈ ports ∧ t = s ∧ l = none) ∨ Leads (body.strokes [.south s]) q l t ∨
        (q = .south s ∧ t = body.start s ∧ l = none) ∨
        Leads (back (body.exits [.south s]) s dummy) q l t ∨ rest.Out [.east s] next q l t := by
  simp only [Out, strokes, exits, leads_node, leads_append, leads_into, leads_edge, or_assoc]
  rfl

theorem mem_exits {p : Plan} (h : q ∈ p.exits ports) : p = done ∧ q ∈ ports ∨ q.spot ∈ p.all := by
  induction p generalizing ports with
  | done => exact .inl ⟨rfl, h⟩
  | block s text rest ih =>
      rcases ih h with ⟨_, last⟩ | later
      · cases List.mem_singleton.mp last
        exact .inr List.mem_cons_self
      · exact .inr (List.mem_cons_of_mem s later)
  | branch s condition yes no rest ihYes ihNo ih =>
      have side {part : Plan} (inPart : part = done ∧ q ∈ [] ∨ q.spot ∈ part.all) :
          q.spot ∈ part.all := inPart.resolve_left fun h => List.not_mem_nil h.2
      rcases ih h with ⟨_, last⟩ | later
      · rcases List.mem_append.mp last with here | here
        · simp [all, side (ihYes here)]
        · simp [all, side (ihNo here)]
      · simp [all, later]
  | loop s condition body dummy rest _ ih =>
      rcases ih h with ⟨_, last⟩ | later
      · cases List.mem_singleton.mp last
        exact .inr (by simp [all, Port.spot])
      · simp [all, later]

theorem mem_exits_of_ne {p : Plan} (nonempty : p ≠ done) (h : q ∈ p.exits ports) : q.spot ∈ p.all :=
  (mem_exits h).resolve_left fun h => nonempty h.1

theorem mem_exits_nil {p : Plan} (h : q ∈ p.exits []) : q.spot ∈ p.all :=
  (mem_exits h).resolve_left fun h => List.not_mem_nil h.2

theorem leads_back {dummy : Option Spot} : Leads (back ports s dummy) q l t ↔
    l = none ∧ (q ∈ ports ∧ t = dummy.getD s ∨ ∃ d ∈ dummy, q = .south d ∧ t = s) := by
  have unlabelled : List.lookup "label" [("headport", "w"), ("tailport", "w")] = none := rfl
  cases dummy with
  | none =>
      rw [back, leads_map]
      simp only [unlabelled]
      grind
  | some d =>
      rw [back, leads_append, leads_into, leads_edge]
      simp [leads_nil, unlabelled]
      grind

/-- The edges of a plan begin at its own nodes, or else they lead to its first node. -/
theorem leads_strokes {p : Plan} (solid : p.Solid) (h : Leads (p.strokes ports) q l t) :
    q.spot ∈ p.all ∨ q ∈ ports ∧ l = none ∧ ∀ next, t = p.start next := by
  induction p generalizing ports with
  | done => exact absurd h leads_nil
  | block s text rest ih =>
      simp only [strokes, leads_node, leads_append, leads_into] at h
      rcases h with ⟨here, rfl, rfl⟩ | later
      · exact .inr ⟨here, rfl, fun _ => rfl⟩
      · grind [all, Port.spot, Solid]
  | branch s condition yes no rest ihYes ihNo ih =>
      simp only [strokes, leads_node, leads_append, leads_into, leads_edge] at h
      obtain ⟨_, _, _, solidYes, solidNo, solid⟩ := solid
      have inYes := @mem_exits_nil q yes
      have inNo := @mem_exits_nil q no
      rcases h with ⟨here, rfl, rfl⟩ | later
      · exact .inr ⟨here, rfl, fun _ => rfl⟩
      · left
        grind [all, Port.spot]
  | loop s condition body dummy rest ihBody ih =>
      simp only [strokes, leads_node, leads_append, leads_into, leads_edge] at h
      obtain ⟨_, _, nonempty, solidBody, solid⟩ := solid
      have inBody := @mem_exits_of_ne [.south s] q body nonempty
      rcases h with ⟨here, rfl, rfl⟩ | inside | ⟨rfl, _⟩ | returns | later
      · exact .inr ⟨here, rfl, fun _ => rfl⟩
      · left
        grind [all, Port.spot]
      · left
        grind [all, Port.spot]
      · left
        obtain ⟨_, ⟨here, _⟩ | ⟨d, known, rfl, _⟩⟩ := leads_back.mp returns
        · simp [all, inBody here]
        · simp [all, Port.spot, Option.mem_def.mp known]
      · left
        grind [all, Port.spot]

theorem not_mem_exits {p : Plan} (outside : q.spot ∉ p.all) : q ∉ p.exits [] :=
  fun h => outside (mem_exits_nil h)

theorem not_leads {p : Plan} (solid : p.Solid) (outside : q.spot ∉ p.all) :
    ¬ Leads (p.strokes []) q l t := by
  intro h
  rcases leads_strokes solid h with inside | ⟨none, _⟩
  · exact outside inside
  · cases none

theorem out_start {p : Plan} (h : q ∈ ports) : p.Out ports next q none (p.start next) := by
  cases p with
  | done => exact out_done.mpr ⟨h, rfl, rfl⟩
  | block => exact out_block.mpr (.inl ⟨h, rfl, rfl⟩)
  | branch => exact out_branch.mpr (.inl ⟨h, rfl, rfl⟩)
  | loop => exact out_loop.mpr (.inl ⟨h, rfl, rfl⟩)

theorem out_outside {p : Plan} (solid : p.Solid) (outside : q.spot ∉ p.all) :
    p.Out ports next q l t ↔ q ∈ ports ∧ t = p.start next ∧ l = none := by
  constructor
  · rintro (drawn | ⟨last, rfl, rfl⟩)
    · obtain ⟨here, rfl, start⟩ := (leads_strokes solid drawn).resolve_left outside
      exact ⟨here, start next, rfl⟩
    · rcases mem_exits last with ⟨rfl, here⟩ | inside
      · exact ⟨here, rfl, rfl⟩
      · exact absurd inside outside
  · rintro ⟨here, rfl, rfl⟩
    exact out_start here

/-- The strokes give the nodes of the plan the edges that are drawn for it, and no others. -/
def Exact (S : List Stroke) (p : Plan) (ports : List Port) (next : Spot) : Prop :=
  ∀ q l t, q.spot ∈ p.all → (Leads S q l t ↔ p.Out ports next q l t)

/-- All nodes of the plan are different, and none of them has one of the ports. -/
structure Fresh (p : Plan) (ports : List Port) : Prop where
  nodup : p.all.Nodup
  ports : ∀ q ∈ ports, q.spot ∉ p.all

theorem Fresh.branch {condition : String} {yes no rest : Plan}
    (fresh : (Plan.branch s condition yes no rest).Fresh ports) :
    (∀ u, u ∈ (Plan.branch s condition yes no rest).all ↔
      u = s ∨ u ∈ yes.all ∨ u ∈ no.all ∨ u ∈ rest.all) ∧
    (s ∉ yes.all ∧ s ∉ no.all ∧ s ∉ rest.all) ∧
    (∀ u ∈ yes.all, u ∉ no.all ∧ u ∉ rest.all) ∧ (∀ u ∈ no.all, u ∉ rest.all) ∧
    yes.Fresh [] ∧ no.Fresh [] ∧ rest.Fresh (yes.exits [] ++ no.exits []) := by
  have nodup := fresh.nodup
  simp only [all, List.nodup_cons, List.nodup_append, List.mem_append, not_or] at nodup
  obtain ⟨own, nodupYes, ⟨nodupNo, nodupRest, noRest⟩, yesOther⟩ := nodup
  have yesApart (u : Spot) (hu : u ∈ yes.all) : u ∉ no.all ∧ u ∉ rest.all :=
    ⟨fun h => yesOther u hu u (.inl h) rfl, fun h => yesOther u hu u (.inr h) rfl⟩
  have noApart (u : Spot) (hu : u ∈ no.all) : u ∉ rest.all := fun h => noRest u hu u h rfl
  refine ⟨fun u => ?_, own, yesApart, noApart, ⟨nodupYes, List.forall_mem_nil _⟩,
    ⟨nodupNo, List.forall_mem_nil _⟩, nodupRest, ?_⟩
  · simp only [all, List.mem_cons, List.mem_append]
  · intro q hq
    rcases List.mem_append.mp hq with last | last
    · exact (yesApart _ (mem_exits_nil last)).2
    · exact noApart _ (mem_exits_nil last)

theorem Fresh.loop {condition : String} {body rest : Plan} {dummy : Option Spot}
    (fresh : (Plan.loop s condition body dummy rest).Fresh ports) :
    (∀ u, u ∈ (Plan.loop s condition body dummy rest).all ↔
      u = s ∨ u ∈ dummy ∨ u ∈ body.all ∨ u ∈ rest.all) ∧
    (s ∉ dummy ∧ s ∉ body.all ∧ s ∉ rest.all) ∧
    (∀ u ∈ dummy, u ∉ body.all ∧ u ∉ rest.all) ∧ (∀ u ∈ body.all, u ∉ rest.all) ∧
    body.Fresh [.south s] ∧ rest.Fresh [.east s] := by
  have nodup := fresh.nodup
  simp only [all, List.nodup_cons, List.nodup_append, List.mem_append, not_or, Option.mem_toList]
    at nodup
  obtain ⟨⟨ownBody, ownDummy, ownRest⟩, nodupBody, ⟨_, nodupRest, dummyRest⟩, bodyOther⟩ := nodup
  refine ⟨fun u => ?_, ⟨ownDummy, ownBody, ownRest⟩,
    fun u hu => ⟨fun h => bodyOther u h u (.inl hu) rfl,
    fun h => dummyRest u hu u h rfl⟩, fun u hu h => bodyOther u hu u (.inr h) rfl, ⟨nodupBody, ?_⟩,
    nodupRest, ?_⟩
  · simp only [all, List.mem_cons, List.mem_append, Option.mem_toList, Option.mem_def]
    grind
  · intro q hq
    cases List.mem_singleton.mp hq
    exact ownBody
  · intro q hq
    cases List.mem_singleton.mp hq
    exact ownRest

namespace Exact

variable {S : List Stroke} {text condition : String} {yes no body rest : Plan} {dummy : Option Spot}

theorem block (exact : (Plan.block s text rest).Exact S ports next) (solid : rest.Solid)
    (fresh : (Plan.block s text rest).Fresh ports) :
    (∀ l t, Joins S l s t ↔ l = none ∧ t = rest.start next) ∧
      rest.Exact S [.south s] next ∧ rest.Fresh [.south s] := by
  have apart : s ∉ rest.all ∧ rest.all.Nodup := List.nodup_cons.mp fresh.nodup
  have here : s ∈ (Plan.block s text rest).all := List.mem_cons_self
  refine ⟨fun l t => ⟨?_, ?_⟩, ?_, apart.2, ?_⟩
  · rintro ⟨q, rfl, leads⟩
    rcases out_block.mp ((exact q l t here).mp leads) with ⟨before, _⟩ | later
    · exact absurd here (fresh.ports q before)
    · obtain ⟨_, rfl, rfl⟩ := (out_outside solid apart.1).mp later
      exact ⟨rfl, rfl⟩
  · rintro ⟨rfl, rfl⟩
    exact ⟨.south s, rfl,
      (exact (.south s) _ _ here).mpr (out_block.mpr (.inr (out_start (by simp))))⟩
  · intro q l t hq
    have inside : q.spot ∈ (Plan.block s text rest).all := List.mem_cons_of_mem s hq
    rw [exact q l t inside, out_block]
    exact or_iff_right fun h => fresh.ports q h.1 inside
  · intro q hq
    cases List.mem_singleton.mp hq
    exact apart.1

theorem branch (exact : (Plan.branch s condition yes no rest).Exact S ports next)
    (solid : (Plan.branch s condition yes no rest).Solid)
    (fresh : (Plan.branch s condition yes no rest).Fresh ports) :
    (∀ l t, Joins S l s t ↔
      l = some "true" ∧ t = yes.start s ∨ l = some "false" ∧ t = no.start s) ∧
    yes.Exact S [] (rest.start next) ∧ no.Exact S [] (rest.start next) ∧
    rest.Exact S (yes.exits [] ++ no.exits []) next := by
  obtain ⟨_, _, _, solidYes, solidNo, solid⟩ := solid
  obtain ⟨mem, ⟨ownYes, ownNo, ownRest⟩, yesApart, noApart, _⟩ := fresh.branch
  have early {q : Port} (h : q.spot ∈ (Plan.branch s condition yes no rest).all) : q ∉ ports :=
    fun before => fresh.ports q before h
  refine ⟨fun l t => ⟨?_, ?_⟩, ?_, ?_, ?_⟩
  · rintro ⟨q, rfl, leads⟩
    have inside := (mem q.spot).mpr (.inl rfl)
    have out := out_branch.mp ((exact q l t inside).mp leads)
    simp only [early inside, not_leads solidYes ownYes, not_leads solidNo ownNo,
      out_outside solid ownRest, List.mem_append, not_mem_exits ownYes, not_mem_exits ownNo,
      false_and, or_self, or_false, false_or] at out
    exact out.imp (fun h => ⟨h.2.2, h.2.1⟩) (fun h => ⟨h.2.2, h.2.1⟩)
  · intro h
    refine ⟨.south s, rfl, (exact (.south s) l t ((mem s).mpr (.inl rfl))).mpr (out_branch.mpr ?_)⟩
    rcases h with ⟨rfl, rfl⟩ | ⟨rfl, rfl⟩
    · exact .inr (.inr (.inr (.inl ⟨rfl, rfl, rfl⟩)))
    · exact .inr (.inr (.inr (.inr (.inl ⟨rfl, rfl, rfl⟩))))
  · intro q l t hq
    have inside := (mem q.spot).mpr (.inr (.inl hq))
    obtain ⟨apartNo, apartRest⟩ := yesApart _ hq
    have other : q ≠ .south s := fun h => ownYes (by rw [h] at hq; exact hq)
    rw [exact q l t inside, out_branch]
    simp only [early inside, not_leads solidNo apartNo, out_outside solid apartRest, other,
      List.mem_append, not_mem_exits apartNo, false_and, or_false, false_or]
    rfl
  · intro q l t hq
    have inside := (mem q.spot).mpr (.inr (.inr (.inl hq)))
    have apartYes : q.spot ∉ yes.all := fun h => (yesApart _ h).1 hq
    have other : q ≠ .south s := fun h => ownNo (by rw [h] at hq; exact hq)
    rw [exact q l t inside, out_branch]
    simp only [early inside, not_leads solidYes apartYes, out_outside solid (noApart _ hq), other,
      List.mem_append, not_mem_exits apartYes, false_and, false_or]
    rfl
  · intro q l t hq
    have inside := (mem q.spot).mpr (.inr (.inr (.inr hq)))
    have apartYes : q.spot ∉ yes.all := fun h => (yesApart _ h).2 hq
    have apartNo : q.spot ∉ no.all := fun h => noApart _ h hq
    have other : q ≠ .south s := fun h => ownRest (by rw [h] at hq; exact hq)
    rw [exact q l t inside, out_branch]
    simp only [early inside, not_leads solidYes apartYes, not_leads solidNo apartNo, other,
      false_and, false_or]

theorem loop (exact : (Plan.loop s condition body dummy rest).Exact S ports next)
    (solid : (Plan.loop s condition body dummy rest).Solid)
    (fresh : (Plan.loop s condition body dummy rest).Fresh ports) :
    (∀ l t, Joins S l s t ↔ l = none ∧ (t = body.start s ∨ t = rest.start next)) ∧
    body.Exact S [.south s] (dummy.getD s) ∧
    (∀ d ∈ dummy, ∀ l t, Joins S l d t ↔ l = none ∧ t = s) ∧ rest.Exact S [.east s] next := by
  obtain ⟨_, _, nonempty, solidBody, solid⟩ := solid
  obtain ⟨mem, ⟨ownDummy, ownBody, ownRest⟩, dummyApart, bodyApart, _⟩ := fresh.loop
  have early {q : Port} (h : q.spot ∈ (Plan.loop s condition body dummy rest).all) : q ∉ ports :=
    fun before => fresh.ports q before h
  have inBody {q : Port} : q ∈ body.exits [.south s] → q.spot ∈ body.all :=
    mem_exits_of_ne nonempty
  refine ⟨fun l t => ⟨?_, ?_⟩, ?_, fun d hd l t => ⟨?_, ?_⟩, ?_⟩
  · rintro ⟨q, rfl, leads⟩
    have inside := (mem q.spot).mpr (.inl rfl)
    rcases out_loop.mp ((exact q l t inside).mp leads) with ⟨h, _⟩ | drawn | h | h | h
    · exact absurd h (early inside)
    · obtain ⟨_, rfl, start⟩ := (leads_strokes solidBody drawn).resolve_left ownBody
      exact ⟨rfl, .inl (start _)⟩
    · exact ⟨h.2.2, .inl h.2.1⟩
    · obtain ⟨_, ⟨last, _⟩ | ⟨d, hd, same, _⟩⟩ := leads_back.mp h
      · exact absurd (inBody last) ownBody
      · exact absurd (by rw [same]; exact hd) ownDummy
    · obtain ⟨_, rfl, rfl⟩ := (out_outside solid ownRest).mp h
      exact ⟨rfl, .inr rfl⟩
  · rintro ⟨rfl, rfl | rfl⟩
    · exact ⟨.south s, rfl, (exact (.south s) _ _ ((mem s).mpr (.inl rfl))).mpr
        (out_loop.mpr (.inr (.inr (.inl ⟨rfl, rfl, rfl⟩))))⟩
    · exact ⟨.east s, rfl, (exact (.east s) _ _ ((mem s).mpr (.inl rfl))).mpr
        (out_loop.mpr (.inr (.inr (.inr (.inr (out_start (by simp)))))))⟩
  · intro q l t hq
    have inside := (mem q.spot).mpr (.inr (.inr (.inl hq)))
    have other : q ≠ .south s := fun h => ownBody (by rw [h] at hq; exact hq)
    have east : q ≠ .east s := fun h => ownBody (by rw [h] at hq; exact hq)
    have noDummy : ¬ ∃ d ∈ dummy, q = .south d ∧ t = s := by
      rintro ⟨d, hd, rfl, _⟩
      exact (dummyApart d hd).1 hq
    rw [exact q l t inside, out_loop]
    simp only [early inside, other, leads_back, noDummy, out_outside solid (bodyApart _ hq),
      List.mem_singleton, east, false_and, or_false, false_or]
    unfold Out
    grind
  · rintro ⟨q, rfl, leads⟩
    obtain ⟨apartBody, apartRest⟩ := dummyApart _ hd
    have inside := (mem q.spot).mpr (.inr (.inl hd))
    have other {p : Port} (hp : p.spot = s) : q ≠ p := by
      rintro rfl
      exact ownDummy (by rw [← hp]; exact hd)
    rcases out_loop.mp ((exact q l t inside).mp leads) with ⟨h, _⟩ | drawn | ⟨h, _⟩ | h | h
    · exact absurd h (early inside)
    · obtain ⟨last, _⟩ := (leads_strokes solidBody drawn).resolve_left apartBody
      exact absurd (List.mem_singleton.mp last) (other rfl)
    · exact absurd h (other rfl)
    · obtain ⟨rfl, ⟨last, _⟩ | ⟨_, _, _, rfl⟩⟩ := leads_back.mp h
      · exact absurd (inBody last) apartBody
      · exact ⟨rfl, rfl⟩
    · obtain ⟨last, _⟩ := (out_outside solid apartRest).mp h
      exact absurd (List.mem_singleton.mp last) (other rfl)
  · rintro ⟨rfl, rfl⟩
    exact ⟨.south d, rfl, (exact (.south d) _ _ ((mem d).mpr (.inr (.inl hd)))).mpr
      (out_loop.mpr (.inr (.inr (.inr (.inl (leads_back.mpr ⟨rfl, .inr ⟨d, hd, rfl, rfl⟩⟩))))))⟩
  · intro q l t hq
    have inside := (mem q.spot).mpr (.inr (.inr (.inr hq)))
    have apartBody : q.spot ∉ body.all := fun h => bodyApart _ h hq
    have other : q ≠ .south s := fun h => ownRest (by rw [h] at hq; exact hq)
    have undrawn : ¬ Leads (body.strokes [.south s]) q l t := fun drawn =>
      other (List.mem_singleton.mp ((leads_strokes solidBody drawn).resolve_left apartBody).1)
    have last : q ∉ body.exits [.south s] := fun h => apartBody (inBody h)
    have noDummy : ¬ ∃ d ∈ dummy, q = .south d ∧ t = s := by
      rintro ⟨d, hd, rfl, _⟩
      exact (dummyApart d hd).2 hq
    rw [exact q l t inside, out_loop]
    simp only [early inside, other, undrawn, leads_back, last, noDummy, false_and, or_self,
      and_false, false_or]

end Exact

/-- Where a plan has been drawn exactly, its nodes have the edges that it asks for. -/
theorem wired_of_exact {S : List Stroke} {p : Plan} (solid : p.Solid) (fresh : p.Fresh ports)
    (exact : p.Exact S ports next) : p.Wired (Joins S) next := by
  induction p generalizing ports next with
  | done => trivial
  | block s text rest ih =>
      obtain ⟨real, solid⟩ := solid
      obtain ⟨edges, exact, fresh⟩ := exact.block solid fresh
      exact ⟨real, edges, ih solid fresh exact⟩
  | branch s condition yes no rest ihYes ihNo ih =>
      obtain ⟨edges, exactYes, exactNo, exact⟩ := exact.branch solid fresh
      obtain ⟨_, _, _, _, freshYes, freshNo, fresh⟩ := fresh.branch
      obtain ⟨real, nonemptyYes, nonemptyNo, solidYes, solidNo, solid⟩ := solid
      exact ⟨real, edges, nonemptyYes, nonemptyNo, ihYes solidYes freshYes exactYes,
        ihNo solidNo freshNo exactNo, ih solid fresh exact⟩
  | loop s condition body dummy rest ihBody ih =>
      obtain ⟨edges, exactBody, returns, exact⟩ := exact.loop solid fresh
      obtain ⟨_, _, _, _, freshBody, fresh⟩ := fresh.loop
      obtain ⟨real, dummies, nonempty, solidBody, solid⟩ := solid
      exact ⟨real, edges, nonempty, ihBody solidBody freshBody exactBody,
        fun d hd => ⟨dummies d hd, returns d hd⟩, ih solid fresh exact⟩

end Plan

end GoFlow
