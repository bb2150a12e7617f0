import GoFlow.Proofs.Settling

/-! How if statements and loops are left, by either edition. It is said once what is taken off the
stacks, what is put there instead and which edges are drawn, also where the builder is stopped. -/

namespace GoFlow

open Dot (Statement endNode)
open Move (link edgesFrom Follows)

def Item.number : Item → Nat
  | .name s => nodeNumber s
  | .group _ => 0

namespace Builder

/-- What holds of a builder at every moment of a walk. Nodes are numbered in the order they are
made, the stacks hold known nodes only, and the firsts are listed with falling numbers. -/
structure Regular (b : Builder) : Prop where
  named : ∀ s ∈ b.nodes, NodeName s
  rising : b.nodes.Pairwise fun s t => nodeNumber s < nodeNumber t
  bounded : ∀ s ∈ b.nodes, nodeNumber s ≤ b.count
  firsts : ∀ x ∈ b.firsts, ∃ s ∈ b.nodes, x = .name s
  falling : b.firsts.Pairwise fun x y => y.number < x.number
  lasts : ∀ x ∈ b.lasts, x.Known b.nodes
  ends : ∀ x ∈ b.ends, x.Known b.nodes

theorem Regular.new (ed : Edition) : (Builder.new ed).Regular where
  named := by rintro s ⟨⟩
  rising := .nil
  bounded := by rintro s ⟨⟩
  firsts := by rintro x ⟨⟩
  falling := .nil
  lasts := by rintro x ⟨⟩
  ends := by rintro x ⟨⟩

/-- The name can be taken from the lasts, or it is that of a first, by itself or with a port. -/
def Offers (b : Builder) (s : String) : Prop :=
  (∃ x ∈ b.lasts, s ∈ x.names) ∨
    ∃ r, .name r ∈ b.firsts ∧ (s = r ∨ ∃ port ∈ ["e", "w"], s = r ++ ":" ++ port)

end Builder

/-- The entry has names, and the builder offers each of them. -/
def Item.Offered (b : Builder) (x : Item) : Prop := x.names ≠ [] ∧ ∀ s ∈ x.names, b.Offers s

namespace Item.Offered

variable {b : Builder} {x y : Item} {s : String}

theorem of_mem_lasts (regular : b.Regular) (member : x ∈ b.lasts) : x.Offered b :=
  ⟨(regular.lasts x member).1, fun _ hs => .inl ⟨x, member, hs⟩⟩

theorem name (offers : b.Offers s) : (Item.name s).Offered b := by
  refine ⟨by simp [names], fun t ht => ?_⟩
  cases List.mem_singleton.mp ht
  exact offers

theorem port (member : .name s ∈ b.firsts) {p : String} (known : p ∈ ["e", "w"]) :
    (Item.name (s ++ ":" ++ p)).Offered b :=
  .name (.inr ⟨s, member, .inr ⟨p, known, rfl⟩⟩)

theorem both {z : Item} (hx : x.Offered b) (hy : y.Offered b)
    (same : z.names = x.names ++ y.names) : z.Offered b := by
  rw [Offered, same]
  exact ⟨by simp [hx.1], List.forall_mem_append.mpr ⟨hx.2, hy.2⟩⟩

theorem known (h : x.Offered b) (regular : b.Regular) : x.Known b.nodes := by
  refine ⟨h.1, fun s hs => ?_⟩
  rcases h.2 s hs with ⟨y, member, hy⟩ | ⟨r, member, same⟩
  · exact (regular.lasts y member).2 s hy
  · obtain ⟨_, node, ⟨⟩⟩ := regular.firsts _ member
    exact ⟨r, node, same⟩

end Item.Offered

namespace Builder

/-- The attributes of edges that lead into a branch or into the body of a loop. -/
def inwardAttributes : List (List (String × String)) :=
  [[], [("label", "true")], [("label", "true"), ("headport", "n"), ("tailport", "w")],
    [("label", "false"), ("headport", "n"), ("tailport", "e")]]

/-- An edge from one of the firsts to a node with a larger number. -/
def Inward (b : Builder) (e : Statement) : Prop :=
  ∃ s t attributes, .name s ∈ b.firsts ∧ t ∈ b.nodes ∧ nodeNumber s < nodeNumber t ∧
    attributes ∈ inwardAttributes ∧ e = link s t attributes

/-- What is drawn, and the last number then, when an if statement is left. -/
def Branches (b : Builder) (count : Nat) (edges : List Statement) : Prop :=
  count = b.count ∧ ∀ e ∈ edges, b.Inward e

/-- What is drawn, and the last number then, when a loop is left. The late edition closes the loop
with the last edge; a dummy takes the next number if there are several ends. -/
inductive Turns (b : Builder) : Nat → List Statement → Prop
  | straight {inward : List Statement} {s loop : String} : b.edition = .late →
      (∀ e ∈ inward, b.Inward e) → b.Offers s → .name loop ∈ b.firsts →
      Turns b b.count (inward ++ [link s loop [("headport", "w"), ("tailport", "w")]])
  | through {inward : List Statement} {tails : List String} {dummy loop : String} :
      b.edition = .late → (∀ e ∈ inward, b.Inward e) → dummy = "d" ++ toString (b.count + 1) →
      tails ≠ [] → (∀ s ∈ tails, b.Offers s) → .name loop ∈ b.firsts →
      Turns b (b.count + 1) (inward ++ edgesFrom dummy tails ++
        [link dummy loop [("headport", "w"), ("tailport", "w")]])
  | early {inward : List Statement} {tails : List String} {loop : String}
      {attributes : List (String × String)} : b.edition = .early →
      (∀ e ∈ inward, b.Inward e) → (∀ s ∈ tails, b.Offers s) → .name loop ∈ b.firsts →
      Turns b b.count (inward ++ tails.map fun s => link s loop attributes)

/-- The stacks of a builder that leaves a statement: no first is added, and what is put on the lasts
and the ends was offered. If this is done, there is such an entry on top of both. -/
structure Restacks (done : Prop) (b : Builder) (firsts lasts ends : List Item) : Prop where
  taken : firsts.Sublist b.firsts
  offered : ∀ x ∈ lasts, x.Offered b
  ready : ∀ x ∈ ends, x ∈ b.ends ∨ x.Offered b
  tops : done → lasts ≠ [] ∧ ∃ x, ends.head? = some x ∧ x.Offered b

/-- From one builder to another a statement is left, and `E` tells the last number and the edges
that are drawn. -/
def Leaves (done : Prop) (E : Nat → List Statement → Prop) (b c : Builder) : Prop :=
  ∃ count firsts lasts ends edges drawings drawn, b.Restacks done firsts lasts ends ∧
    E count edges ∧
    c = { b with
      count := count
      firsts := firsts
      lasts := lasts
      ends := ends
      graph := b.graph ++ edges
      drawings := drawings
      drawn := drawn }

theorem Leaves.weaken {done : Prop} {E : Nat → List Statement → Prop} {b c : Builder}
    (h : Leaves done E b c) : Leaves False E b c := by
  obtain ⟨count, firsts, lasts, ends, edges, drawings, drawn, restacks, drew, same⟩ := h
  exact ⟨count, firsts, lasts, ends, edges, drawings, drawn, { restacks with tops := False.elim },
    drew, same⟩

/-- Entries have been taken off the firsts, which are at hand, and off the lasts. -/
def Pops (hand : List Item) (b c : Builder) : Prop :=
  ∃ firsts lasts, (hand ++ firsts).Sublist b.firsts ∧ lasts.Sublist b.lasts ∧
    c = { b with firsts := firsts, lasts := lasts }

theorem Pops.refl (b : Builder) : Pops [] b b := ⟨_, _, .refl _, .refl _, rfl⟩

theorem Pops.release {hand : List Item} {b c : Builder} (h : Pops hand b c) : Pops [] b c := by
  obtain ⟨firsts, lasts, taken, dropped, same⟩ := h
  exact ⟨firsts, lasts, (List.sublist_append_right hand firsts).trans taken, dropped, same⟩

theorem Pops.leaves {hand : List Item} {b c : Builder} (regular : b.Regular) (h : Pops hand b c) :
    Leaves False b.Branches b c := by
  obtain ⟨firsts, lasts, taken, dropped, rfl⟩ := h.release
  refine ⟨b.count, firsts, lasts, b.ends, [], b.drawings, b.drawn, ⟨taken, ?_, ?_, False.elim⟩,
    ⟨rfl, by simp⟩, by rw [List.append_nil]⟩
  · exact fun x hx => .of_mem_lasts regular (dropped.subset hx)
  · exact fun x hx => .inl hx

/-- Entries have been taken off the ends. -/
def Drops (b c : Builder) : Prop := ∃ ends, ends <:+ b.ends ∧ c = { b with ends := ends }

theorem Drops.same {b c : Builder} (h : Drops b c) : c.firsts = b.firsts ∧ c.lasts = b.lasts := by
  obtain ⟨_, _, rfl⟩ := h
  exact ⟨rfl, rfl⟩

namespace Leaves

variable {E : Nat → List Statement → Prop} {b c d : Builder} {x : Item}

theorem drops (h : Leaves False E b c) (dropped : Drops c d) : Leaves False E b d := by
  obtain ⟨count, firsts, lasts, ends, edges, drawings, drawn, restacks, drew, rfl⟩ := h
  obtain ⟨rest, less, rfl⟩ := dropped
  exact ⟨count, firsts, lasts, rest, edges, drawings, drawn,
    ⟨restacks.taken, restacks.offered, fun x hx => restacks.ready x (less.subset hx), False.elim⟩,
    drew, rfl⟩

theorem addFirst {done : Prop} (h : Leaves done E b c)
    (taken : (x.addTo c.firsts).Sublist b.firsts) :
    Leaves done E b { c with firsts := x.addTo c.firsts } := by
  obtain ⟨count, firsts, lasts, ends, edges, drawings, drawn, restacks, drew, rfl⟩ := h
  exact ⟨count, _, lasts, ends, edges, drawings, drawn, { restacks with taken := taken }, drew, rfl⟩

theorem addLast (h : Leaves False E b c) (offered : x.Offered b) :
    Leaves False E b { c with lasts := x.addTo c.lasts } := by
  obtain ⟨count, firsts, lasts, ends, edges, drawings, drawn, restacks, drew, rfl⟩ := h
  refine ⟨count, firsts, x.addTo lasts, ends, edges, drawings, drawn,
    ⟨restacks.taken, fun y hy => ?_, restacks.ready, False.elim⟩, drew, rfl⟩
  rcases Item.mem_addTo hy with rfl | old
  · exact offered
  · exact restacks.offered y old

theorem pushEnd (h : Leaves False E b c) (offered : x.Offered b) :
    Leaves False E b { c with ends := x :: c.ends } := by
  obtain ⟨count, firsts, lasts, ends, edges, drawings, drawn, restacks, drew, rfl⟩ := h
  have ready := List.forall_mem_cons.mpr ⟨.inr offered, restacks.ready⟩
  exact ⟨count, firsts, lasts, x :: ends, edges, drawings, drawn,
    ⟨restacks.taken, restacks.offered, ready, False.elim⟩, drew, rfl⟩

theorem note {name : String} (h : Leaves False E b c) (offered : (Item.name name).Offered b) :
    Leaves False E b { c with ends := noted name c.ends } := by
  obtain ⟨count, firsts, lasts, ends, edges, drawings, drawn, restacks, drew, rfl⟩ := h
  refine ⟨count, firsts, lasts, noted name ends, edges, drawings, drawn,
    ⟨restacks.taken, restacks.offered, fun x hx => ?_, False.elim⟩, drew, rfl⟩
  rcases mem_noted hx with rfl | old
  · exact .inr offered
  · exact restacks.ready x old

theorem draw {done : Prop} (h : Leaves done E b c) :
    Leaves done E b { c with drawings := c.drawings + 1, drawn := some c.graph } := by
  obtain ⟨count, firsts, lasts, ends, edges, _, _, restacks, drew, rfl⟩ := h
  exact ⟨count, firsts, lasts, ends, edges, _, _, restacks, drew, rfl⟩

theorem done (h : Leaves False E b c) (lasts : c.lasts ≠ []) (top : c.ends.head? = some x)
    (offered : x.Offered b) : Leaves True E b c := by
  obtain ⟨count, firsts, _, ends, edges, drawings, drawn, restacks, drew, rfl⟩ := h
  exact ⟨count, firsts, _, ends, edges, drawings, drawn,
    { restacks with tops := fun _ => ⟨lasts, x, top, offered⟩ }, drew, rfl⟩

end Leaves

end Builder

namespace Move

open Builder (Regular Pops Drops Leaves Restacks Branches Turns)

variable {α : Type} {hand : List Item} {b : Builder} {Q : α → Builder → Prop} {S : Builder → Prop}

theorem edition_pops {f : Edition → Move α} (next : Ensures (Pops hand b) (f b.edition) Q S) :
    Ensures (Pops hand b) (Move.edition >>= f) Q S := by
  rintro c hc
  have same : c.edition = b.edition := by
    obtain ⟨_, _, -, -, rfl⟩ := hc
    rfl
  rw [Builder.perform_bind_ok (Builder.perform_edition c), same]
  exact next c hc

theorem nodeBefore_pops (regular : b.Regular) {s t : String} {f : String → Move α}
    (follows : Follows b.nodes s t) (next : Ensures (Pops hand b) (f s) Q S) :
    Ensures (Pops hand b) (nodeBefore (.name t) >>= f) Q S := by
  rintro c hc
  obtain ⟨firsts, lasts, -, -, rfl⟩ := id hc
  have found := perform_nodeBefore (b := { b with firsts := firsts, lasts := lasts })
    regular.rising (regular.named t follows.right).whole follows
  rw [Builder.perform_bind_ok found]
  exact next _ hc

section

variable (halts : ∀ c, Pops [] b c → S c)

include halts

theorem popFirst_pops : Ensures (Pops hand b) popFirst (fun x => Pops (hand ++ [x]) b) S := by
  rintro _ ⟨firsts, lasts, taken, dropped, rfl⟩
  rw [Builder.perform_popFirst]
  cases firsts with
  | nil =>
      refine ensured_of_error ?_
      exact halts _ (Pops.release ⟨[], lasts, taken, dropped, rfl⟩)
  | cons x firsts =>
      refine ensured_of_ok ?_
      exact ⟨firsts, lasts, by simpa using taken, dropped, rfl⟩

theorem popLast_pops :
    Ensures (Pops hand b) popLast (fun x c => x ∈ b.lasts ∧ Pops hand b c) S := by
  rintro _ ⟨firsts, lasts, taken, dropped, rfl⟩
  rw [Builder.perform_popLast]
  cases lasts with
  | nil =>
      refine ensured_of_error ?_
      exact halts _ (Pops.release ⟨firsts, [], taken, dropped, rfl⟩)
  | cons x lasts =>
      refine ensured_of_ok ?_
      exact ⟨dropped.subset List.mem_cons_self, firsts, lasts, taken,
        (List.sublist_cons_self x lasts).trans dropped, rfl⟩

theorem popBranchEnd_pops :
    Ensures (Pops hand b) popBranchEnd (fun x c => x ∈ b.lasts ∧ Pops hand b c) S := by
  refine (popLast_pops halts).given fun x member => ?_
  refine Ensures.bind (Q := fun _ => Pops hand b) ?_ fun _ => Ensures.pure fun c hc => ⟨member, hc⟩
  apply Ensures.modify
  rintro _ ⟨firsts, lasts, taken, dropped, rfl⟩
  exact ⟨firsts, lasts.erase x, taken, List.erase_sublist.trans dropped, rfl⟩

variable (regular : b.Regular)

include regular

theorem advanceFirst_pops {f : Item → Item → Move α}
    (next : ∀ s t, Follows b.nodes s t →
      Ensures (Pops (hand ++ [.name s]) b) (f (.name s) (.name t)) Q S) :
    Ensures (Pops hand b) (do let x ← popFirst; let y ← advance x; f x y) Q S := by
  refine (popFirst_pops halts).bind fun x => ?_
  rintro c hc
  obtain ⟨firsts, lasts, taken, -, same⟩ := id hc
  obtain ⟨s, node, rfl⟩ := regular.firsts x (taken.subset (by simp))
  have nodes : c.nodes = b.nodes := by rw [same]
  rcases perform_advance (b := c) (regular.named s node).whole with
    ⟨e, stopped⟩ | ⟨t, follows, done⟩
  · rw [Builder.perform_bind_error stopped]
    refine ensured_of_error ?_
    exact halts c hc.release
  · rw [Builder.perform_bind_ok done]
    exact next s t (nodes ▸ follows) c hc

/-- The node of an if statement, of which the early edition knows nothing yet, and the first one of
its then branch. -/
theorem thenBranch_pops :
    Ensures (Pops hand b) thenBranch
      (fun p c => ∃ s t, Follows b.nodes s t ∧ p.2 = .name t ∧
        (b.edition = .late → p.1 = .name s) ∧ Pops (hand ++ [.name s]) b c) S := by
  unfold thenBranch
  apply edition_pops
  cases edition : b.edition with
  | late =>
      refine advanceFirst_pops halts regular fun s t follows => Ensures.pure fun c hc => ?_
      exact ⟨s, t, follows, rfl, fun _ => rfl, hc⟩
  | early =>
      refine advanceFirst_pops halts regular fun s t follows => Ensures.pure fun c hc => ?_
      exact ⟨s, t, follows, rfl, by rintro ⟨⟩, hc⟩

theorem loopBody_pops :
    Ensures (Pops [] b) loopBody
      (fun p c => ∃ s t last, p = (.name t, last, s) ∧ Follows b.nodes s t ∧ last ∈ b.lasts ∧
        Pops [.name s] b c) S := by
  unfold loopBody
  refine advanceFirst_pops halts regular fun s t follows => ?_
  refine (popBranchEnd_pops halts).given fun last member => ?_
  refine nodeBefore_pops regular follows (Ensures.pure fun c hc => ?_)
  exact ⟨s, t, last, rfl, follows, member, hc⟩

end

theorem popEnd_drops : Ensures (Drops b) popEnd (fun _ => Drops b) (Drops b) := by
  rintro _ ⟨ends, rest, rfl⟩
  rw [Builder.perform_popEnd]
  cases ends with
  | nil =>
      refine ensured_of_error ?_
      exact ⟨[], rest, rfl⟩
  | cons x ends =>
      refine ensured_of_ok ?_
      exact ⟨ends, (List.suffix_cons x ends).trans rest, rfl⟩

theorem dropping {E : Nat → List Statement → Prop} {m : Move α} {c : Builder}
    (left : Leaves False E b c) (halts : ∀ d, Leaves False E b d → S d)
    (h : Ensures (Drops c) m Q (Drops c)) :
    (∀ a d, c.perform m = (.ok a, d) → Q a d) ∧ ∀ e d, c.perform m = (.error e, d) → S d := by
  obtain ⟨done, stopped⟩ := h c ⟨c.ends, List.suffix_rfl, rfl⟩
  exact ⟨done, fun e d same => halts d (left.drops (stopped e d same))⟩

theorem mem_of_pops {hand : List Item} {c : Builder} (h : Pops hand b c) {x : Item}
    (hx : x ∈ hand) : x ∈ b.firsts := by
  obtain ⟨firsts, lasts, taken, -⟩ := h
  exact taken.subset (List.mem_append_left _ hx)

theorem inward_of_follows (regular : b.Regular) {s t : String} (member : .name s ∈ b.firsts)
    (follows : Follows b.nodes s t) {attributes : List (String × String)}
    (known : attributes ∈ Builder.inwardAttributes) : b.Inward (link s t attributes) :=
  ⟨s, t, attributes, member, follows.right, follows.lt regular.rising, known, rfl⟩

theorem leaves_of_pops (regular : b.Regular) {c : Builder} {E : Nat → List Statement → Prop}
    {count : Nat} {edges : List Statement} (h : Pops hand b c) (drew : E count edges) :
    Leaves False E b { c with count := count, graph := c.graph ++ edges } := by
  obtain ⟨firsts, lasts, taken, dropped, rfl⟩ := h.release
  refine ⟨count, firsts, lasts, b.ends, edges, b.drawings, b.drawn, ⟨taken, ?_, ?_, False.elim⟩,
    drew, rfl⟩
  · exact fun x hx => .of_mem_lasts regular (dropped.subset hx)
  · exact fun x hx => .inl hx

theorem branches_of_pops (regular : b.Regular) {c : Builder} {edges : List Statement}
    (h : Pops hand b c) (inward : ∀ e ∈ edges, b.Inward e) :
    Leaves False b.Branches b { c with graph := c.graph ++ edges } :=
  leaves_of_pops regular h ⟨by obtain ⟨_, _, -, -, rfl⟩ := h; rfl, inward⟩

theorem leaveIfElse_leaves (regular : b.Regular) :
    Ensures (Pops [] b) leaveIfElse (fun _ => Leaves True b.Branches b)
      (Leaves False b.Branches b) := by
  have halts (c : Builder) (hc : Pops [] b c) : Leaves False b.Branches b c := hc.leaves regular
  unfold leaveIfElse
  refine advanceFirst_pops halts regular fun r e nextElse => ?_
  refine (popLast_pops halts).given fun elseLast elseMember => ?_
  refine (thenBranch_pops halts regular).bind fun p => ?_
  obtain ⟨ifNode, thenFirst⟩ := p
  rintro c ⟨s, t, nextThen, rfl, own, hc⟩
  refine (?_ : Ensures (Pops [.name r, .name s] b) _ _ _) c hc
  refine (popBranchEnd_pops halts).given fun thenLast thenMember => edition_pops ?_
  have thenOffered := Item.Offered.of_mem_lasts regular thenMember
  have elseOffered := Item.Offered.of_mem_lasts regular elseMember
  have ifMember : .name s ∈ b.firsts := mem_of_pops hc (by simp)
  -- The if node lies below the entry that marks the else branch.
  have less : nodeNumber s < nodeNumber e := by
    obtain ⟨firsts, lasts, taken, -⟩ := id hc
    have pair : [Item.name r, .name s].Sublist b.firsts :=
      (List.sublist_append_left _ firsts).trans taken
    have below : nodeNumber s < nodeNumber r := by
      simpa [Item.number] using regular.falling.sublist pair
    exact below.trans (nextElse.lt regular.rising)
  have inward : ∀ x ∈ [link s t [("label", "true"), ("headport", "n"), ("tailport", "w")],
      link s e [("label", "false"), ("headport", "n"), ("tailport", "e")]], b.Inward x := by
    rw [List.forall_mem_cons, List.forall_mem_singleton]
    exact ⟨inward_of_follows regular ifMember nextThen (by decide),
      s, e, _, ifMember, nextElse.right, less, by decide, rfl⟩
  have rest : Ensures (Pops [.name r, .name s] b) (do
      connect (.name s) (.name t) true [("label", "true"), ("headport", "n"), ("tailport", "w")]
      connect (.name s) (.name e) true [("label", "false"), ("headport", "n"), ("tailport", "e")]
      addLast (.group [thenLast, elseLast])
      let _ ← popEnd
      let _ ← popEnd
      let _ ← popEnd
      pushEnd (joinEnds thenLast elseLast)) (fun _ => Leaves True b.Branches b)
      (Leaves False b.Branches b) := by
    intro c hc
    rw [Builder.perform_bind_ok (perform_connect_name _ _ _ _),
      Builder.perform_bind_ok (perform_connect_name _ _ _ _), List.append_assoc]
    have left := (branches_of_pops regular hc inward).addLast
      (thenOffered.both elseOffered (Item.names_pair thenLast elseLast))
    rw [Builder.perform_bind_ok (Builder.perform_addLast _ _)]
    refine dropping left (fun _ h => h) (popEnd_drops.bind fun _ => popEnd_drops.bind fun _ =>
      popEnd_drops.bind fun _ => Ensures.modify fun d hd => ?_)
    have joined := thenOffered.both elseOffered (Item.names_joinEnds thenLast elseLast)
    refine ((left.drops hd).pushEnd joined).done ?_ rfl joined
    exact hd.same.2.trans_ne (Item.addTo_ne_nil _ _)
  cases edition : b.edition with
  | late =>
      cases own edition
      exact rest
  | early => exact nodeBefore_pops regular nextThen rest

theorem leaveIfThen_leaves (regular : b.Regular) :
    Ensures (Pops [] b) leaveIfThen (fun _ => Leaves True b.Branches b)
      (Leaves False b.Branches b) := by
  have halts (c : Builder) (hc : Pops [] b c) : Leaves False b.Branches b c := hc.leaves regular
  have rest {hand : List Item} {s t : String} (follows : Follows b.nodes s t)
      (ifMember : .name s ∈ hand) : Ensures (Pops hand b) (do
        let thenLast ← popBranchEnd
        let ifNode ← nodeBefore (.name t)
        connect (.name ifNode) (.name t) true [("label", "true")]
        let _ ← popEnd
        let _ ← popEnd
        pushEnd (.group [.name (ifNode ++ ":e"), thenLast])
        addLast thenLast) (fun _ => Leaves True b.Branches b) (Leaves False b.Branches b) := by
    refine (popBranchEnd_pops halts).given fun thenLast thenMember => ?_
    refine nodeBefore_pops regular follows fun c hc => ?_
    have first := mem_of_pops hc ifMember
    have inward : ∀ x ∈ [link s t [("label", "true")]], b.Inward x := by
      rw [List.forall_mem_singleton]
      exact inward_of_follows regular first follows (by decide)
    have left := branches_of_pops regular hc inward
    have thenOffered := Item.Offered.of_mem_lasts regular thenMember
    have pair : (Item.group [.name (s ++ ":e"), thenLast]).Offered b := by
      have east := Item.Offered.port first (p := "e") (by decide)
      rw [String.append_assoc] at east
      exact east.both thenOffered (Item.names_pair _ _)
    rw [Builder.perform_bind_ok (perform_connect_name _ _ _ _)]
    refine dropping left (fun _ h => h)
      (popEnd_drops.bind fun _ => popEnd_drops.bind fun _ d hd => ?_)
    rw [Builder.perform_bind_ok (Builder.perform_pushEnd d _), Builder.perform_addLast]
    refine ensured_of_ok ?_
    exact (((left.drops hd).pushEnd pair).addLast thenOffered).done (Item.addTo_ne_nil _ _) rfl pair
  unfold leaveIfThen
  refine advanceFirst_pops halts regular fun r t follows => edition_pops ?_
  cases b.edition with
  | early => exact rest follows (by simp)
  | late => exact advanceFirst_pops halts regular fun s u next => rest next (by simp)

/-- An if statement is left, or the builder is stopped on the way. -/
theorem closeIf_leaves (regular : b.Regular) (ts : List Tree) :
    Ensures (fun c => c = b) (closeIf ts) (fun _ => Leaves True b.Branches b)
      (Leaves False b.Branches b) := by
  have drawn : Ensures (Leaves True b.Branches b) draw (fun _ => Leaves True b.Branches b)
      (Leaves False b.Branches b) := Ensures.modify fun c hc => hc.draw
  have start (c : Builder) (same : c = b) : Pops [] b c := same ▸ .refl b
  refine Ensures.weaken (P := Pops [] b) ?_ start (fun _ _ h => h) fun _ h => h
  unfold closeIf
  split
  · exact (leaveIfElse_leaves regular).bind fun _ => drawn
  · exact (leaveIfThen_leaves regular).bind fun _ => drawn

theorem perform_closeLoop (late : b.edition = .late) (last : Item) (loop : String) :
    ∃ count back, b.perform (closeLoop last loop) =
        (.ok (), { b with count := count, graph := b.graph ++ back }) ∧
      ((∃ s, last = .name s ∧ count = b.count ∧
          back = [link s loop [("headport", "w"), ("tailport", "w")]]) ∨
        ∃ dummy, dummy = "d" ++ toString (b.count + 1) ∧ count = b.count + 1 ∧
          back = edgesFrom dummy last.names ++
            [link dummy loop [("headport", "w"), ("tailport", "w")]]) := by
  cases last with
  | name s =>
      exact ⟨_, _, perform_connect_name b s loop _, .inl ⟨s, rfl, rfl, rfl⟩⟩
  | group xs =>
      refine ⟨_, _, ?_, .inr ⟨_, rfl, rfl, rfl⟩⟩
      unfold closeLoop
      simp only [Item.isGroup, if_true]
      rw [Builder.perform_bind_ok (Builder.perform_modify b _),
        Builder.perform_bind_ok (Builder.perform_get _),
        Builder.perform_bind_ok (perform_connect_late (by exact late) _ _), perform_connect_name,
        List.append_assoc]

theorem leaveLoop_late (regular : b.Regular) (late : b.edition = .late) :
    Ensures (Pops [] b) (leaveLoop .late) (fun _ => Leaves True b.Turns b)
      (fun c => Leaves False b.Branches b c ∨ Leaves False b.Turns b c) := by
  refine (loopBody_pops (fun c hc => .inl (hc.leaves regular)) regular).bind fun p => ?_
  rintro c ⟨s, t, last, rfl, follows, lastMember, hc⟩
  have first : .name s ∈ b.firsts := mem_of_pops hc (by simp)
  have lastOffered := Item.Offered.of_mem_lasts regular lastMember
  have inward : ∀ e ∈ [link s t []], b.Inward e := by
    rw [List.forall_mem_singleton]
    exact inward_of_follows regular first follows (by decide)
  have east := Item.Offered.port first (p := "e") (by decide)
  rw [String.append_assoc] at east
  obtain ⟨count, back, closed, cases⟩ := perform_closeLoop
    (b := { c with graph := c.graph ++ [link s t []] })
    (by obtain ⟨_, _, -, -, rfl⟩ := hc; exact late) last s
  have turns : b.Turns count ([link s t []] ++ back) := by
    have same : c.count = b.count := by obtain ⟨_, _, -, -, rfl⟩ := hc; rfl
    rcases cases with ⟨r, rfl, rfl, rfl⟩ | ⟨dummy, named, rfl, rfl⟩
    · rw [same]
      exact .straight late inward (lastOffered.2 r (by simp [Item.names])) first
    · rw [same] at named ⊢
      rw [← List.append_assoc]
      exact .through late inward named lastOffered.1 lastOffered.2 first
  have left := leaves_of_pops regular hc turns
  -- The loop is the first that was taken off, so that it may be put back.
  have again : ((Item.name s).addTo c.firsts).Sublist b.firsts := by
    obtain ⟨firsts, lasts, taken, -, rfl⟩ := hc
    unfold Item.addTo
    split
    · exact (List.sublist_append_right _ _).trans taken
    · exact taken
  dsimp only
  rw [Builder.perform_bind_ok (perform_connect_name _ _ _ _), Builder.perform_bind_ok closed,
    List.append_assoc]
  refine dropping left (fun _ h => .inr h) (popEnd_drops.bind fun _ d hd => ?_)
  rw [Builder.perform_bind_ok (Builder.perform_pushEnd d _),
    Builder.perform_bind_ok (Builder.perform_draw _),
    Builder.perform_bind_ok (Builder.perform_addLast _ _), Builder.perform_addFirst]
  refine ensured_of_ok ?_
  have put := ((left.drops hd).pushEnd east).draw.addLast east
  refine (put.done (Item.addTo_ne_nil _ _) rfl east).addFirst ?_
  rw [show d.firsts = c.firsts from hd.same.1]
  exact again

theorem leaveLoop_early (regular : b.Regular) (early : b.edition = .early) :
    Ensures (Pops [] b) (leaveLoop .early) (fun _ => Leaves True b.Turns b)
      (fun c => Leaves False b.Branches b c ∨ Leaves False b.Turns b c) := by
  refine (loopBody_pops (fun c hc => .inl (hc.leaves regular)) regular).bind fun p => ?_
  rintro c ⟨s, t, last, rfl, follows, lastMember, hc⟩
  have first : .name s ∈ b.firsts := mem_of_pops hc (by simp)
  have lastOffered := Item.Offered.of_mem_lasts regular lastMember
  have inward : ∀ e ∈ [link s t []], b.Inward e := by
    rw [List.forall_mem_singleton]
    exact inward_of_follows regular first follows (by decide)
  have west := Item.Offered.port first (p := "w") (by decide)
  rw [String.append_assoc] at west
  have node := regular.named s follows.left
  have turns : b.Turns b.count ([link s t []] ++ last.names.map fun r =>
      link r s (if last.isGroup then [] else [("headport", "e"), ("tailport", "e")])) :=
    .early early inward lastOffered.2 first
  have left : Leaves False b.Turns b { c with
      graph := c.graph ++ ([link s t []] ++ last.names.map fun r =>
        link r s (if last.isGroup then [] else [("headport", "e"), ("tailport", "e")])) } := by
    have left := leaves_of_pops regular hc turns
    obtain ⟨_, _, -, -, rfl⟩ := hc
    exact left
  dsimp only
  rw [Builder.perform_bind_ok (perform_connect_name _ _ _ _),
    Builder.perform_bind_ok (perform_connect_attributes (.inr node.real) node.ne_empty _ _),
    List.append_assoc]
  have noted := left.note (.name (.inr ⟨s, first, .inl rfl⟩))
  refine dropping noted (fun _ h => .inr h)
    (popEnd_drops.bind fun _ => popEnd_drops.bind fun _ d hd => ?_)
  rw [Builder.perform_bind_ok (Builder.perform_pushEnd d _), Builder.perform_addLast]
  refine ensured_of_ok ?_
  have pair := west.both lastOffered (Item.names_pair _ _)
  exact (((noted.drops hd).pushEnd pair).addLast west).done (Item.addTo_ne_nil _ _) rfl pair

/-- A loop is left, or the builder is stopped before or after the loop is closed. -/
theorem leaveLoop_leaves (regular : b.Regular) :
    Ensures (fun c => c = b) (leaveLoop b.edition) (fun _ => Leaves True b.Turns b)
      (fun c => Leaves False b.Branches b c ∨ Leaves False b.Turns b c) := by
  have start (c : Builder) (same : c = b) : Pops [] b c := same ▸ .refl b
  refine Ensures.weaken (P := Pops [] b) ?_ start (fun _ _ h => h) fun _ h => h
  cases edition : b.edition with
  | late => exact leaveLoop_late regular edition
  | early => exact leaveLoop_early regular edition

end Move

end GoFlow
