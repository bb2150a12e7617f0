import GoFlow.Proofs.Sketch

/-! Plans: bodies with the nodes that are made for them. A plan has traces, which say how control
may pass through it, and it says which edges its nodes should have. Where they have just these
edges, the paths through the nodes are the traces. -/

namespace GoFlow

/-- A body in which each if statement has an else, with its nodes. -/
inductive Plan where
  | done
  | block (spot : Spot) (text : String) (rest : Plan)
  | branch (spot : Spot) (condition : String) (yes no rest : Plan)
  /-- If the body may end at several nodes, these lead back to the loop through a dummy. -/
  | loop (spot : Spot) (condition : String) (body : Plan) (dummy : Option Spot) (rest : Plan)
  deriving DecidableEq, Repr

/-- A node, with the label of the edge by which it is entered. -/
abbrev Visit := Option String × Spot

namespace Plan

def body : Plan → Body
  | done => .done
  | block _ text rest => .run text rest.body
  | branch _ condition yes no rest => .branch condition yes.body (.block no.body) rest.body
  | loop _ condition inner _ rest => .loop condition inner.body rest.body

/-- How control may pass through a plan that is entered by an edge with the label. -/
inductive Trace : Option String → Plan → List Visit → Prop
  | done {l : Option String} : Trace l .done []
  | block {l : Option String} {s : Spot} {text : String} {rest : Plan} {vs : List Visit}
      (after : Trace none rest vs) : Trace l (.block s text rest) ((l, s) :: vs)
  | yes {l : Option String} {s : Spot} {condition : String} {yes no rest : Plan}
      {us vs : List Visit} (inside : Trace (some "true") yes us) (after : Trace none rest vs) :
      Trace l (.branch s condition yes no rest) ((l, s) :: us ++ vs)
  | no {l : Option String} {s : Spot} {condition : String} {yes no rest : Plan} {us vs : List Visit}
      (inside : Trace (some "false") no us) (after : Trace none rest vs) :
      Trace l (.branch s condition yes no rest) ((l, s) :: us ++ vs)
  | leave {l : Option String} {s : Spot} {condition : String} {body rest : Plan}
      {dummy : Option Spot} {vs : List Visit} (after : Trace none rest vs) :
      Trace l (.loop s condition body dummy rest) ((l, s) :: vs)
  | again {l : Option String} {s : Spot} {condition : String} {body rest : Plan}
      {dummy : Option Spot} {us vs : List Visit} (inside : Trace none body us)
      (after : Trace none (.loop s condition body dummy rest) vs) :
      Trace l (.loop s condition body dummy rest) ((l, s) :: us ++ vs)

/-- Where a plan begins, if a node follows it. -/
def start : Plan → Spot → Spot
  | done, next => next
  | block s _ _, _ | branch s _ _ _ _, _ | loop s _ _ _ _, _ => s

/-- The label by which what follows the plan is entered. -/
def leaving : Plan → Option String → Option String
  | done, l => l
  | _, _ => none

theorem leaving_none (p : Plan) : p.leaving none = none := by
  cases p <;> rfl

theorem leaving_of_ne {p : Plan} (nonempty : p ≠ done) (l : Option String) :
    p.leaving l = none := by
  cases p with
  | done => exact absurd rfl nonempty
  | _ => rfl

/-- The nodes of a plan and its dummies, in the order of their numbers. -/
def all : Plan → List Spot
  | done => []
  | block s _ rest => s :: rest.all
  | branch s _ yes no rest => s :: (yes.all ++ (no.all ++ rest.all))
  | loop s _ body dummy rest => s :: (body.all ++ (dummy.toList ++ rest.all))

/-- The nodes have just the edges that the plan asks for, if a node follows it. -/
def Wired (E : Option String → Spot → Spot → Prop) : Plan → Spot → Prop
  | done, _ => True
  | block s _ rest, next =>
      s.role ≠ .dummy ∧ (∀ l t, E l s t ↔ l = none ∧ t = rest.start next) ∧ rest.Wired E next
  | branch s _ yes no rest, next =>
      s.role ≠ .dummy ∧ (∀ l t, E l s t ↔
        l = some "true" ∧ t = yes.start s ∨ l = some "false" ∧ t = no.start s) ∧
      yes ≠ done ∧ no ≠ done ∧ yes.Wired E (rest.start next) ∧ no.Wired E (rest.start next) ∧
      rest.Wired E next
  | loop s _ body dummy rest, next =>
      s.role ≠ .dummy ∧
      (∀ l t, E l s t ↔ l = none ∧ (t = body.start s ∨ t = rest.start next)) ∧
      body ≠ done ∧ body.Wired E (dummy.getD s) ∧
      (∀ d ∈ dummy, d.role = .dummy ∧ ∀ l t, E l d t ↔ l = none ∧ t = s) ∧ rest.Wired E next

theorem start_of_ne {p : Plan} (nonempty : p ≠ done) (s t : Spot) : p.start s = p.start t := by
  cases p with
  | done => exact absurd rfl nonempty
  | _ => rfl

end Plan

/-- A path to a node, with the labels of its edges. -/
inductive Tour (E : Option String → Spot → Spot → Prop) (goal : Spot) :
    Option String → Spot → List Visit → Prop
  | stop (l : Option String) : Tour E goal l goal [(l, goal)]
  | step {l l' : Option String} {s t : Spot} {vs : List Visit} (edge : E l' s t)
      (rest : Tour E goal l' t vs) : Tour E goal l s ((l, s) :: vs)

theorem Tour.forth {E : Option String → Spot → Spot → Prop} {goal s : Spot} {l : Option String}
    {ws : List Visit} (tour : Tour E goal l s ws) (elsewhere : goal ≠ s) :
    ∃ l' t vs, ws = (l, s) :: vs ∧ E l' s t ∧ Tour E goal l' t vs := by
  cases tour with
  | stop => exact absurd rfl elsewhere
  | step edge rest => exact ⟨_, _, _, rfl, edge, rest⟩

def seen (vs : List Visit) : List Visit := vs.filter fun v => v.2.role ≠ .dummy

theorem seen_append (us vs : List Visit) : seen (us ++ vs) = seen us ++ seen vs :=
  List.filter_append us vs

theorem seen_cons {s : Spot} (real : s.role ≠ .dummy) (l : Option String) (vs : List Visit) :
    seen ((l, s) :: vs) = (l, s) :: seen vs :=
  List.filter_cons_of_pos (by simp [real])

theorem seen_dummy {s : Spot} (dummy : s.role = .dummy) (l : Option String) :
    seen [(l, s)] = [] := by
  simp [seen, dummy]

namespace Plan

variable {E : Option String → Spot → Spot → Prop} {goal : Spot}

/-- The ends of a loop's body lead back to the loop, through its dummy if it has one. -/
theorem tour_back {s : Spot} {dummy : Option Spot}
    (back : ∀ d ∈ dummy, d.role = .dummy ∧ ∀ l t, E l d t ↔ l = none ∧ t = s) {ws : List Visit}
    (tour : Tour E goal none s ws) :
    ∃ us, Tour E goal none (dummy.getD s) (us ++ ws) ∧ seen us = [] := by
  cases dummy with
  | none => exact ⟨[], tour, rfl⟩
  | some d =>
      obtain ⟨role, edges⟩ := back d rfl
      exact ⟨[(none, d)], .step ((edges _ _).mpr ⟨rfl, rfl⟩) tour, seen_dummy role none⟩

theorem tour_enter {s next : Spot} {l l' : Option String} {part : Plan} (nonempty : part ≠ done)
    (edge : E l' s (part.start s)) {us vs ws : List Visit}
    (tour : Tour E goal l' (part.start next) (us ++ (vs ++ ws))) :
    Tour E goal l s (((l, s) :: us ++ vs) ++ ws) := by
  rw [start_of_ne nonempty next s] at tour
  rw [List.cons_append, List.cons_append, List.append_assoc]
  exact .step edge tour

theorem Trace.tour {l : Option String} {p : Plan} {vs : List Visit} (trace : Trace l p vs)
    {next : Spot} (wired : p.Wired E next) {ws : List Visit}
    (after : Tour E goal (p.leaving l) next ws) :
    ∃ us, Tour E goal l (p.start next) (us ++ ws) ∧ seen us = vs := by
  induction trace generalizing next ws with
  | done => exact ⟨[], after, rfl⟩
  | @block l s text rest vs _ ih =>
      obtain ⟨real, edges, wired⟩ := wired
      obtain ⟨us, tour, same⟩ := ih wired (by rw [leaving_none]; exact after)
      exact ⟨(l, s) :: us, .step ((edges _ _).mpr ⟨rfl, rfl⟩) tour, by rw [seen_cons real, same]⟩
  | @yes l s condition yes no rest us vs _ _ ihIn ihAfter =>
      obtain ⟨real, edges, nonempty, _, wiredYes, _, wired⟩ := wired
      obtain ⟨late, tour, sameLate⟩ := ihAfter wired (by rw [leaving_none]; exact after)
      obtain ⟨early, tour, sameEarly⟩ := ihIn wiredYes (by rw [leaving_of_ne nonempty]; exact tour)
      refine ⟨(l, s) :: early ++ late,
        tour_enter nonempty ((edges _ _).mpr (.inl ⟨rfl, rfl⟩)) tour, ?_⟩
      rw [List.cons_append, seen_cons real, seen_append, sameEarly, sameLate, List.cons_append]
  | @no l s condition yes no rest us vs _ _ ihIn ihAfter =>
      obtain ⟨real, edges, _, nonempty, _, wiredNo, wired⟩ := wired
      obtain ⟨late, tour, sameLate⟩ := ihAfter wired (by rw [leaving_none]; exact after)
      obtain ⟨early, tour, sameEarly⟩ := ihIn wiredNo (by rw [leaving_of_ne nonempty]; exact tour)
      refine ⟨(l, s) :: early ++ late,
        tour_enter nonempty ((edges _ _).mpr (.inr ⟨rfl, rfl⟩)) tour, ?_⟩
      rw [List.cons_append, seen_cons real, seen_append, sameEarly, sameLate, List.cons_append]
  | @leave l s condition body rest dummy vs _ ih =>
      obtain ⟨real, edges, _, _, _, wired⟩ := wired
      obtain ⟨us, tour, same⟩ := ih wired (by rw [leaving_none]; exact after)
      exact ⟨(l, s) :: us,
        .step ((edges _ _).mpr ⟨rfl, .inr rfl⟩) tour, by rw [seen_cons real, same]⟩
  | @again l s condition body rest dummy us vs _ _ ihIn ihAfter =>
      obtain ⟨late, tour, sameLate⟩ := ihAfter wired after
      obtain ⟨real, edges, nonempty, wiredBody, back, wired⟩ := wired
      obtain ⟨between, tour, sameBetween⟩ := tour_back back tour
      obtain ⟨early, tour, sameEarly⟩ := ihIn wiredBody (by rw [leaving_none]; exact tour)
      rw [← List.append_assoc between] at tour
      refine ⟨(l, s) :: early ++ (between ++ late),
        tour_enter nonempty ((edges _ _).mpr ⟨rfl, .inl rfl⟩) tour, ?_⟩
      rw [List.cons_append, seen_cons real, seen_append, seen_append, sameEarly,
        sameBetween, sameLate, List.nil_append, List.cons_append]

theorem tour_forth {s : Spot} {dummy : Option Spot}
    (back : ∀ d ∈ dummy, d.role = .dummy ∧ ∀ l t, E l d t ↔ l = none ∧ t = s)
    (outside : ∀ d ∈ dummy, goal ≠ d) {vs : List Visit}
    (tour : Tour E goal none (dummy.getD s) vs) :
    ∃ us ws, vs = us ++ ws ∧ seen us = [] ∧ Tour E goal none s ws := by
  cases dummy with
  | none => exact ⟨[], vs, rfl, rfl, tour⟩
  | some d =>
      obtain ⟨role, edges⟩ := back d rfl
      obtain ⟨_, _, ws, rfl, edge, rest⟩ := tour.forth (outside d rfl)
      obtain ⟨rfl, rfl⟩ := (edges _ _).mp edge
      exact ⟨[(none, d)], ws, rfl, seen_dummy role none, rest⟩

/-- A path of so many visits that begins where the plan does passes through it by a trace. -/
def Passes (E : Option String → Spot → Spot → Prop) (goal : Spot) (n : Nat) (p : Plan)
    (next : Spot) : Prop :=
  ∀ (l : Option String) (ws : List Visit), ws.length ≤ n → Tour E goal l (p.start next) ws →
    ∃ us vs, ws = us ++ vs ∧ Trace l p (seen us) ∧ Tour E goal (p.leaving l) next vs

namespace Passes

variable {n : Nat} {s next : Spot} {text condition : String} {yes no body rest : Plan}

theorem block (elsewhere : goal ≠ s) (real : s.role ≠ .dummy)
    (edges : ∀ l t, E l s t ↔ l = none ∧ t = rest.start next) (after : Passes E goal n rest next) :
    Passes E goal (n + 1) (.block s text rest) next := by
  intro l ws short tour
  obtain ⟨_, _, ws, rfl, edge, tour⟩ := tour.forth elsewhere
  obtain ⟨rfl, rfl⟩ := (edges _ _).mp edge
  obtain ⟨us, vs, rfl, trace, tour⟩ := after _ _ (Nat.le_of_succ_le_succ short) tour
  rw [leaving_none] at tour
  exact ⟨(l, s) :: us, vs, rfl, by rw [seen_cons real]; exact .block trace, tour⟩

theorem side {part : Plan} (nonempty : part ≠ done)
    (inside : Passes E goal n part (rest.start next)) (after : Passes E goal n rest next)
    {l : Option String} {ws : List Visit} (short : ws.length ≤ n)
    (tour : Tour E goal l (part.start s) ws) :
    ∃ us vs ws', ws = us ++ vs ++ ws' ∧ Trace l part (seen us) ∧ Trace none rest (seen vs) ∧
      Tour E goal none next ws' := by
  rw [start_of_ne nonempty s (rest.start next)] at tour
  obtain ⟨us, ws', rfl, first, tour⟩ := inside _ _ short tour
  rw [leaving_of_ne nonempty] at tour
  rw [List.length_append] at short
  obtain ⟨vs, ws'', rfl, second, tour⟩ := after _ _ (by omega) tour
  rw [leaving_none] at tour
  exact ⟨us, vs, ws'', by rw [List.append_assoc], first, second, tour⟩

theorem branch (elsewhere : goal ≠ s) (real : s.role ≠ .dummy)
    (edges : ∀ l t, E l s t ↔
      l = some "true" ∧ t = yes.start s ∨ l = some "false" ∧ t = no.start s)
    (nonemptyYes : yes ≠ done) (nonemptyNo : no ≠ done)
    (insideYes : Passes E goal n yes (rest.start next))
    (insideNo : Passes E goal n no (rest.start next)) (after : Passes E goal n rest next) :
    Passes E goal (n + 1) (.branch s condition yes no rest) next := by
  intro l ws short tour
  obtain ⟨_, _, ws, rfl, edge, tour⟩ := tour.forth elsewhere
  have less := Nat.le_of_succ_le_succ short
  rcases (edges _ _).mp edge with ⟨rfl, rfl⟩ | ⟨rfl, rfl⟩
  · obtain ⟨us, vs, ws', rfl, inside, after, tour⟩ := side nonemptyYes insideYes after less tour
    refine ⟨(l, s) :: (us ++ vs), ws', rfl, ?_, tour⟩
    rw [seen_cons real, seen_append]
    exact .yes inside after
  · obtain ⟨us, vs, ws', rfl, inside, after, tour⟩ := side nonemptyNo insideNo after less tour
    refine ⟨(l, s) :: (us ++ vs), ws', rfl, ?_, tour⟩
    rw [seen_cons real, seen_append]
    exact .no inside after

theorem loop {dummy : Option Spot} (elsewhere : goal ≠ s) (real : s.role ≠ .dummy)
    (edges : ∀ l t, E l s t ↔ l = none ∧ (t = body.start s ∨ t = rest.start next))
    (nonempty : body ≠ done)
    (back : ∀ d ∈ dummy, d.role = .dummy ∧ ∀ l t, E l d t ↔ l = none ∧ t = s)
    (outside : ∀ d ∈ dummy, goal ≠ d) (inside : Passes E goal n body (dummy.getD s))
    (again : Passes E goal n (.loop s condition body dummy rest) next)
    (after : Passes E goal n rest next) :
    Passes E goal (n + 1) (.loop s condition body dummy rest) next := by
  intro l ws short tour
  obtain ⟨_, _, ws, rfl, edge, tour⟩ := tour.forth elsewhere
  have less := Nat.le_of_succ_le_succ short
  obtain ⟨rfl, rfl | rfl⟩ := (edges _ _).mp edge
  · rw [start_of_ne nonempty s (dummy.getD s)] at tour
    obtain ⟨us, ws', rfl, first, tour⟩ := inside _ _ less tour
    rw [leaving_none] at tour
    obtain ⟨between, ws'', rfl, unseen, tour⟩ := tour_forth back outside tour
    simp only [List.length_append] at less
    obtain ⟨vs, ws', rfl, second, tour⟩ := again _ _ (by omega) tour
    refine ⟨(l, s) :: (us ++ between ++ vs), ws', by simp [start], ?_, tour⟩
    rw [seen_cons real, seen_append, seen_append, unseen, List.append_nil]
    exact .again first second
  · obtain ⟨us, vs, rfl, trace, tour⟩ := after _ _ less tour
    rw [leaving_none] at tour
    exact ⟨(l, s) :: us, vs, rfl, by rw [seen_cons real]; exact .leave trace, tour⟩

end Passes

theorem Wired.passes (n : Nat) {p : Plan} {next : Spot} (wired : p.Wired E next)
    (outside : ∀ s ∈ p.all, goal ≠ s) : Passes E goal n p next := by
  induction n generalizing p next with
  | zero =>
      intro l ws short tour
      cases tour <;> cases short
  | succ n ih =>
      cases p with
      | done => exact fun _ ws _ tour => ⟨[], ws, rfl, .done, tour⟩
      | block s text rest =>
          obtain ⟨real, edges, wired⟩ := wired
          exact .block (outside s (by simp [all])) real edges
            (ih wired fun t ht => outside t (by grind [all]))
      | branch s condition yes no rest =>
          obtain ⟨real, edges, nonemptyYes, nonemptyNo, wiredYes, wiredNo, wired⟩ := wired
          exact .branch (outside s (by simp [all])) real edges nonemptyYes nonemptyNo
            (ih wiredYes fun t ht => outside t (by grind [all]))
            (ih wiredNo fun t ht => outside t (by grind [all]))
            (ih wired fun t ht => outside t (by grind [all]))
      | loop s condition body dummy rest =>
          have whole := ih wired outside
          obtain ⟨real, edges, nonempty, wiredBody, back, wired⟩ := wired
          exact .loop (outside s (by simp [all])) real edges nonempty back
            (fun d hd => outside d (by simp [all, Option.mem_def.mp hd]))
            (ih wiredBody fun t ht => outside t (by grind [all])) whole
            (ih wired fun t ht => outside t (by grind [all]))

end Plan

end GoFlow
