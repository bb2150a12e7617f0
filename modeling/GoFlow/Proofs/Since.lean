import GoFlow.Proofs.Changes

/-! What is drawn from some moment on. Where all that the builder could connect has been made since
a number, so has all that it will connect: the stacks never give back what was made earlier. -/

namespace GoFlow

open Dot (Statement endNode)
open Move Builder

/-- The names of the entry have been given since the number. -/
def Item.Since (n : Nat) (x : Item) : Prop := ∀ s ∈ x.names, n < nodeNumber (endNode s)

theorem Item.Since.of_name {n : Nat} {s : String} (new : n < nodeNumber (endNode s)) :
    (Item.name s).Since n := by
  simpa [Item.Since, Item.names] using new

namespace Builder

/-- What the builder has connected, and what it holds ready on its firsts and its lasts, has been
made since the number. -/
structure Since (n : Nat) (b : Builder) : Prop where
  count : n ≤ b.count
  firsts : ∀ x ∈ b.firsts, x.Since n
  lasts : ∀ x ∈ b.lasts, x.Since n
  edges : ∀ e ∈ b.graph, ∀ s ∈ e.joins, n < nodeNumber s

/-- The next node is connected with what has been made since. -/
def EndsSince (n : Nat) (b : Builder) : Prop := ∀ x ∈ b.ends.head?, x.Since n

/-- All that the builder has connected or could connect has been made since the number. -/
structure Afresh (n : Nat) (b : Builder) : Prop extends Since n b where
  ends : b.EndsSince n
  last : ∃ s, b.nodes.getLast? = some s ∧ n < nodeNumber s

end Builder

theorem Move.Settles.since {n : Nat} {b : Builder} {name : String} {lasts ends : List Item}
    {edges : List Statement} (settles : Settles True name b lasts ends edges)
    (new : (Item.name name).Since n) (real : name.toList.head? ≠ some 'd')
    (old : ∀ x ∈ b.lasts, x.Since n) (ready : b.lasts = [] ∨ b.EndsSince n) :
    (∀ x ∈ lasts, x.Since n) ∧ (∀ e ∈ edges, ∀ s ∈ e.joins, n < nodeNumber s) ∧
      (b.EndsSince n → ∀ x ∈ ends.head?, x.Since n) := by
  have lastsSince : ∀ x ∈ lasts, x.Since n := by
    intro x hx
    rcases settles.mem.1 x hx with rfl | below
    · exact new
    · exact old x below
  refine ⟨lastsSince, ?_⟩
  cases settles with
  | first _ => exact ⟨by rintro e ⟨⟩, id⟩
  | apart _ _ =>
      refine ⟨by rintro e ⟨⟩, ?_⟩
      rintro _ _ ⟨⟩
      exact new
  | @joined last tail below under split top _ =>
      have tops : tail.Since n := ready.resolve_left (by simp [split]) tail (by rw [top]; rfl)
      refine ⟨fun e he s hs => ?_, fun _ x hx => ?_⟩
      · obtain ⟨r, hr, rfl⟩ := List.mem_map.mp he
        rw [joins_link, List.mem_pair] at hs
        rcases hs with rfl | rfl
        · exact tops r hr
        · exact new name (by simp [Item.names])
      · rw [head?_noted real] at hx
        cases hx
        exact new
  | stopped undone _ => exact absurd trivial undone

namespace Builder.Since

variable {n : Nat} {b c : Builder} (regular : b.Regular) (since : b.Since n)

include regular since

theorem offers {s : String} (offers : b.Offers s) : n < nodeNumber (endNode s) := by
  rcases offers with ⟨x, member, hs⟩ | ⟨r, first, same⟩
  · exact since.lasts x member s hs
  · have new := since.firsts _ first r (by simp [Item.names])
    obtain ⟨_, node, ⟨⟩⟩ := regular.firsts _ first
    obtain rfl | ⟨port, _, rfl⟩ := same
    · exact new
    · rw [endNode_port (regular.named r node).whole]
      rwa [(regular.named r node).endNode_eq] at new

theorem joins_link {s t : String} (tail : b.Offers s) (head : .name t ∈ b.firsts)
    (attributes : List (String × String)) :
    ∀ m ∈ (link s t attributes).joins, n < nodeNumber m := by
  have head := since.firsts _ head t (by simp [Item.names])
  simp [since.offers regular tail, head]

theorem inward {e : Statement} (inward : b.Inward e) : ∀ m ∈ e.joins, n < nodeNumber m := by
  obtain ⟨s, t, attributes, first, node, less, -, rfl⟩ := inward
  obtain ⟨_, tail, ⟨⟩⟩ := regular.firsts _ first
  have new := since.firsts _ first s (by simp [Item.names])
  rw [(regular.named s tail).endNode_eq] at new
  simp [(regular.named s tail).endNode_eq, (regular.named t node).endNode_eq, new, new.trans less]

theorem turns {count : Nat} {edges : List Statement} (drew : b.Turns count edges) :
    ∀ e ∈ edges, ∀ m ∈ e.joins, n < nodeNumber m := by
  cases drew with
  | straight _ opens tail loop =>
      exact List.forall_mem_append.mpr ⟨fun e he => since.inward regular (opens e he),
        List.forall_mem_singleton.mpr (since.joins_link regular tail loop _)⟩
  | early _ opens tails loop =>
      refine List.forall_mem_append.mpr
        ⟨fun e he => since.inward regular (opens e he), fun e he => ?_⟩
      obtain ⟨s, hs, rfl⟩ := List.mem_map.mp he
      exact since.joins_link regular (tails s hs) loop _
  | @through inward tails dummy loop _ opens named _ offers first =>
      have head := since.firsts _ first loop (by simp [Item.names])
      have new : n < nodeNumber (endNode dummy) := by
        rw [named, endNode_append (by decide), nodeNumber_append (by decide)]
        exact Nat.lt_succ_of_le since.count
      refine List.forall_mem_append.mpr ⟨List.forall_mem_append.mpr
        ⟨fun e he => since.inward regular (opens e he), fun e he => ?_⟩,
        List.forall_mem_singleton.mpr (by simp [new, head])⟩
      obtain ⟨s, hs, rfl⟩ := List.mem_map.mp he
      simp [new, since.offers regular (offers s hs)]

theorem leaves {E : Nat → List Statement → Prop} (h : Leaves True E b c)
    (counts : ∀ {m edges}, E m edges → b.count ≤ m)
    (drawn : ∀ {m edges}, E m edges → ∀ e ∈ edges, ∀ s ∈ e.joins, n < nodeNumber s) :
    c.Since n ∧ c.EndsSince n := by
  obtain ⟨_, _, _, _, _, _, _, restacks, drew, rfl⟩ := h
  have offered {x : Item} (hx : x.Offered b) : x.Since n :=
    fun s hs => since.offers regular (hx.2 s hs)
  refine ⟨⟨since.count.trans (counts drew), fun x hx => since.firsts x (restacks.taken.subset hx),
    fun x hx => offered (restacks.offered x hx),
    List.forall_mem_append.mpr ⟨since.edges, drawn drew⟩⟩, ?_⟩
  obtain ⟨-, x, top, new⟩ := restacks.tops trivial
  intro y hy
  cases top.symm.trans hy
  exact offered new

omit regular in
theorem node {kind name text shape : String} (known : kind ∈ nodeKinds)
    (named : name = kind ++ toString (b.count + 1)) {lasts ends : List Item}
    {edges : List Statement}
    (settles : Settles True name (declared b name text shape) lasts ends edges)
    (ready : b.lasts = [] ∨ b.EndsSince n) (drawings : Nat) (drawn : Option (List Statement)) :
    { b with
      count := b.count + 1
      nodes := b.nodes ++ [name]
      lasts := lasts
      ends := ends
      graph := b.graph ++ Statement.node name text shape :: edges
      drawings := drawings
      drawn := drawn }.Since n ∧ (b.EndsSince n → ∀ x ∈ ends.head?, x.Since n) ∧
      n < nodeNumber name := by
  have own : NodeName name := ⟨kind, known, _, named⟩
  have new : n < nodeNumber name := by
    rw [named, nodeNumber_append (NodeName.lettered known)]
    exact Nat.lt_succ_of_le since.count
  have item : (Item.name name).Since n := .of_name (own.endNode_eq.symm ▸ new)
  obtain ⟨newLasts, newEdges, tops⟩ := settles.since item own.real since.lasts ready
  refine ⟨⟨since.count.trans (Nat.le_succ _), since.firsts, newLasts, ?_⟩, tops, new⟩
  exact List.forall_mem_append.mpr
    ⟨since.edges, List.forall_mem_cons.mpr ⟨by rintro s ⟨⟩, newEdges⟩⟩

end Builder.Since

namespace Builder.Afresh

variable {n : Nat} {b c : Builder} (regular : b.Regular) (afresh : b.Afresh n)

include regular afresh

theorem newest {name : String} (last : b.nodes.getLast? = some name) :
    (Item.name name).Since n := by
  obtain ⟨_, last', new⟩ := afresh.last
  cases last.symm.trans last'
  exact .of_name (by rwa [(regular.named name (List.mem_of_getLast? last)).endNode_eq])

theorem progress {T : String → Prop} (h : Progress T True b c) : c.Afresh n := by
  rcases h with change | turned
  · cases change with
    | aside same _ =>
        simp only [network, Prod.mk.injEq] at same
        obtain ⟨-, count, nodes, firsts, lasts, ends, graph⟩ := same
        exact ⟨⟨count ▸ afresh.count, firsts ▸ afresh.firsts, lasts ▸ afresh.lasts,
          graph ▸ afresh.edges⟩, by rw [EndsSince, ends]; exact afresh.ends, nodes ▸ afresh.last⟩
    | node known _ _ named _ settles =>
        obtain ⟨since, ends, new⟩ :=
          afresh.toSince.node known named settles (.inr afresh.ends) _ _
        exact ⟨since, ends afresh.ends, _, List.getLast?_concat, new⟩
    | first last =>
        refine { afresh with firsts := fun x hx => ?_ }
        rcases Item.mem_addTo hx with rfl | old
        · exact afresh.newest regular last
        · exact afresh.firsts x old
    | last last =>
        refine { afresh with lasts := fun x hx => ?_ }
        rcases Item.mem_addTo hx with rfl | old
        · exact afresh.newest regular last
        · exact afresh.lasts x old
    | top last =>
        refine { afresh with ends := ?_ }
        rintro _ ⟨⟩
        exact afresh.newest regular last
    | branches left =>
        obtain ⟨since, ends⟩ := afresh.toSince.leaves regular left (fun drew => drew.1.ge)
          fun drew e he => afresh.toSince.inward regular (drew.2 e he)
        obtain ⟨_, _, _, _, _, _, _, -, -, rfl⟩ := left
        exact ⟨since, ends, afresh.last⟩
  · obtain ⟨since, ends⟩ := afresh.toSince.leaves regular turned Turns.count_le
      (afresh.toSince.turns regular)
    obtain ⟨_, _, _, _, _, _, _, -, -, rfl⟩ := turned
    exact ⟨since, ends, afresh.last⟩

end Builder.Afresh

/-- Where nothing has been connected and nothing could be, a function begins afresh. -/
theorem Move.enterFunction_begins {n : Nat} {ts : List Tree} {b c : Builder} {u : Unit}
    (since : b.Since n) (lasts : b.lasts = [])
    (done : b.perform (enterFunction ts) = (.ok u, c)) : c.Afresh n := by
  obtain ⟨text, d, asked, rest⟩ := of_perform_bind done
  cases (Looks.lift _).unchanged asked
  obtain ⟨name, e, made, pushed⟩ := of_perform_bind rest
  obtain ⟨k, text, _, _, _, drawings, drawn, chosen, named, settles, rfl⟩ :=
    newNode_settles (by decide) made
  have known := mem_nodeKinds (by decide) chosen
  obtain ⟨since, -, new⟩ := since.node known named settles (.inl lasts) drawings drawn
  cases pushed
  refine ⟨{ since with }, ?_, name, List.getLast?_concat, new⟩
  rintro _ ⟨⟩
  have own : NodeName name := ⟨k, known, _, named⟩
  exact .of_name (own.endNode_eq.symm ▸ new)

end GoFlow
