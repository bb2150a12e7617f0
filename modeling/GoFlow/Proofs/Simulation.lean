import GoFlow.Proofs.Encoding

/-! A builder and a sketch step by step: from a builder that has the texts of a sketch, each hook
leads to one that has the texts of the next sketch, and it is stopped just if there is no next
sketch. -/

namespace GoFlow

open Dot (Statement)
open Move Builder

/-- The builder with more statements in its graph. -/
def Builder.adding (b : Builder) (statements : List Statement) : Builder :=
  { b with graph := b.graph ++ statements }

theorem Builder.adding_adding (b : Builder) (xs ys : List Statement) :
    (b.adding xs).adding ys = b.adding (xs ++ ys) := by
  simp [adding]

namespace Sketch

variable {d : Sketch} {b : Builder}

theorem cut_name (s : Spot) : String.ofList (s.name.toList.takeWhile (· != ':')) = s.name := by
  have all : ∀ c ∈ s.name.toList, (c != ':') = true := by
    intro c hc
    simp only [bne_iff_ne, ne_eq]
    rintro rfl
    exact s.colon_not_mem hc
  rw [List.takeWhile_eq_self_iff.mpr all, String.ofList_toList]

theorem Encodes.perform_advance (h : d.Encodes b) (s : Spot) :
    match d.next? s with
    | some t => b.perform (advance (.name s.name)) = (.ok (.name t.name), b)
    | none => ∃ e, b.perform (advance (.name s.name)) = (.error e, b) := by
  have index := perform_indexOf b s.name
  rw [h.nodes] at index
  unfold advance
  rw [perform_bind_ok (perform_edition b), h.edition]
  simp only [cut_name]
  by_cases member : s ∈ d.nodes
  · rw [idxOf?_map_name member] at index
    rw [perform_bind_ok index]
    have there := perform_nodeAt b (d.nodes.idxOf s + 1)
    rw [h.nodes, List.getElem?_map] at there
    cases next : d.next? s with
    | none =>
        rw [next?] at next
        rw [next] at there
        exact ⟨_, perform_bind_error there _⟩
    | some t =>
        rw [next?] at next
        rw [next] at there
        exact perform_bind_ok there _
  · have absent : s.name ∉ d.nodes.map Spot.name := by
      rw [List.mem_map_of_injective Spot.name_injective]
      exact member
    rw [List.idxOf?_eq_none_iff.mpr absent] at index
    cases next : d.next? s with
    | none => exact ⟨_, perform_bind_error index _⟩
    | some t => exact absurd (mem_of_next? next).1 member

/-- Going on and back again leads to the same node. -/
theorem Encodes.perform_nodeBefore (h : d.Encodes b) {s t : Spot} (next : d.next? s = some t) :
    b.perform (nodeBefore (.name t.name)) = (.ok s.name, b) := by
  have member := (mem_of_next? next).1
  rw [next?] at next
  have distinct : d.nodes.Nodup := h.numbered.rising.imp fun lt same => by
    rw [same] at lt
    exact Nat.lt_irrefl _ lt
  obtain ⟨bound, there⟩ := List.getElem?_eq_some_iff.mp next
  have index : d.nodes.idxOf t = d.nodes.idxOf s + 1 := by rw [← there, distinct.idxOf_getElem]
  have found := perform_indexOf b t.name
  rw [h.nodes, idxOf?_map_name (List.mem_of_getElem? next), index] at found
  have before := perform_nodeAt b (d.nodes.idxOf s)
  rw [h.nodes, List.getElem?_map, List.getElem?_idxOf member] at before
  unfold nodeBefore
  rw [Item.nodeName, cut_name, perform_bind_ok (perform_lift b _), perform_bind_ok found]
  exact before

/-- The statements of the edges from a tip to a node. -/
def edgesTo (s : Spot) (ports : List Port) : List Statement :=
  ports.map fun p => (Stroke.edge p s []).statement

theorem perform_edge (b : Builder) (p : Port) (s : Spot) (attributes : List (String × String)) :
    b.perform (edge (.name p.label) (.name s.name) attributes) =
      (.ok (), b.adding [(Stroke.edge p s attributes).statement]) := by
  have tail : (Item.name p.label).directed "s" = .name p.tail := by
    cases p with
    | south t => simp [Item.directed, Port.label, Port.tail, t.colon_not_mem]
    | east t => simp [Item.directed, Port.label, Port.tail]
  have head : (Item.name s.name).directed "n" = .name (s.name ++ ":" ++ "n") := by
    simp [Item.directed, s.colon_not_mem]
  unfold edge
  rw [tail, head]
  rfl

theorem perform_connect_port (b : Builder) (p : Port) (s : Spot)
    (attributes : List (String × String)) :
    b.perform (connect (.name p.label) (.name s.name) true attributes) =
      (.ok (), b.adding [(Stroke.edge p s attributes).statement]) := by
  rw [connect, perform_bind_ok (perform_edge b p s attributes)]
  rfl

mutual

theorem perform_connect (c : Builder) (late : c.edition = .late) (s : Spot) (x : Tip) :
    c.perform (connect x.item (.name s.name) true []) = (.ok (), c.adding (edgesTo s x.ports)) :=
  match x with
  | .port p => perform_connect_port c p s []
  | .group xs => by
      rw [Tip.item, connect, perform_bind_ok (perform_connectAll c late s xs)]
      rfl

theorem perform_connectAll (c : Builder) (late : c.edition = .late) (s : Spot) (xs : List Tip) :
    c.perform (connectAll (Tip.items xs) (.name s.name) true) =
      (.ok (), c.adding (edgesTo s (Tip.portsAll xs))) :=
  match xs with
  | [] => by
      rw [Tip.items, connectAll, Tip.portsAll, edgesTo, List.map_nil, adding, List.append_nil]
      rfl
  | x :: xs => by
      have manual : (true && decide (c.edition = .late)) = true := by simp [late]
      rw [Tip.items, connectAll, perform_bind_ok (perform_edition c), manual,
        perform_bind_ok (perform_connect c late s x),
        perform_connectAll (c.adding (edgesTo s x.ports)) late s xs, adding_adding,
        Tip.portsAll, edgesTo, edgesTo, edgesTo, List.map_append]

end

/-- A node beyond what a tip knows is no part of it. -/
theorem fresh_item {x : Tip} {n : Nat} (sound : x.Sound n) {s : Spot} (lt : n < s.number) :
    x.item.members.contains (.name s.name) = false ∧ Item.name s.name ≠ x.item := by
  have other : ∀ y : Tip, (∀ p ∈ y.ports, p.spot.number ≤ n) → y.item ≠ .name s.name := by
    intro y known same
    cases y with
    | group ys => cases same
    | port p =>
        rw [Tip.item, Item.name.injEq] at same
        have port : p = .south s := Port.label_injective same
        have le := known p (by simp [Tip.ports])
        rw [port] at le
        exact absurd lt (Nat.not_lt.mpr le)
  refine ⟨?_, fun same => other x sound.known same.symm⟩
  cases x with
  | port p => rfl
  | group xs =>
      rw [Tip.item, Item.members, Tip.items_eq_map, ← Bool.not_eq_true, List.contains_iff_mem,
        List.mem_map]
      rintro ⟨y, hy, same⟩
      refine other y (fun p hp => sound.known p ?_) same
      rw [Tip.ports, Tip.portsAll_eq]
      exact List.mem_flatMap.mpr ⟨y, hy, hp⟩

theorem perform_noteEnd_fresh {c : Builder} (late : c.edition = .late) {ends : List Tip}
    (same : c.ends = ends.map Tip.item) {n : Nat} (sound : ∀ x ∈ ends, x.Sound n) {s : Spot}
    (lt : n < s.number) (real : s.role ≠ .dummy) :
    c.perform (noteEnd (.name s.name)) = (.ok (), { c with ends := .name s.name :: c.ends }) := by
  suffices c.perform (noteEnd (.name s.name)) = c.perform (pushEnd (.name s.name)) from this
  unfold noteEnd
  rw [perform_bind_ok (perform_get c), same]
  cases ends with
  | nil => rfl
  | cons x xs =>
      obtain ⟨absent, differs⟩ := fresh_item (sound x List.mem_cons_self) lt
      have letter : (Item.name s.name).startsWith "d" = .ok false := by
        rw [show "d" = Role.dummy.initial.toString by decide, s.startsWith_name,
          decide_eq_false real]
      simp only [List.map_cons, absent, Bool.not_false, Bool.and_true, differs, ne_eq,
        not_false_eq_true, if_true]
      split
      · rfl
      · rw [perform_bind_ok (perform_edition c), late]
        simp only [letter]
        rw [perform_bind_ok (perform_lift c _)]
        rfl

theorem perform_noteEnd_same {c : Builder} {s : Spot} {ends : List Item}
    (same : c.ends = .name s.name :: ends) : c.perform (noteEnd (.name s.name)) = (.ok (), c) := by
  unfold noteEnd
  rw [perform_bind_ok (perform_get c), same]
  simp [Item.isGroup]

/-- The head is noted, or nothing on top of the ends stands in the way of noting it. -/
def Open (s : Spot) (ends : List Tip) (c : Builder) : Prop :=
  c.edition = .late ∧ (c.ends = ends.map Tip.item ∨ c.ends = .name s.name :: ends.map Tip.item)

section

variable {ends : List Tip} {n : Nat} {s : Spot}

theorem perform_noteEnd (sound : ∀ x ∈ ends, x.Sound n) (lt : n < s.number) (real : s.role ≠ .dummy)
    {c : Builder} (free : Open s ends c) :
    c.perform (noteEnd (.name s.name)) =
      (.ok (), { c with ends := .name s.name :: ends.map Tip.item }) := by
  obtain ⟨late, same | same⟩ := free
  · rw [perform_noteEnd_fresh late same sound lt real, same]
  · rw [perform_noteEnd_same same, ← same]

mutual

/-- Connecting a node just made notes it, however many edges lead to it. -/
theorem perform_connect_open (sound : ∀ x ∈ ends, x.Sound n) (lt : n < s.number)
    (real : s.role ≠ .dummy) (c : Builder) (free : Open s ends c) (x : Tip) :
    c.perform (connect x.item (.name s.name) false []) =
      (.ok (), { c.adding (edgesTo s x.ports) with ends := .name s.name :: ends.map Tip.item }) :=
  match x with
  | .port p => by
      rw [Tip.item, connect, perform_bind_ok (perform_edge c p s [])]
      exact perform_noteEnd sound lt real (c := c.adding _) free
  | .group xs => by
      obtain ⟨e, performed, open'⟩ := perform_connectAll_open sound lt real c free xs
      rw [Tip.item, connect, perform_bind_ok performed]
      exact perform_noteEnd sound lt real (c := { c.adding _ with ends := e }) ⟨free.1, open'⟩

theorem perform_connectAll_open (sound : ∀ x ∈ ends, x.Sound n) (lt : n < s.number)
    (real : s.role ≠ .dummy) (c : Builder) (free : Open s ends c) (xs : List Tip) :
    ∃ e, c.perform (connectAll (Tip.items xs) (.name s.name) false) =
        (.ok (), { c.adding (edgesTo s (Tip.portsAll xs)) with ends := e }) ∧
      (e = ends.map Tip.item ∨ e = .name s.name :: ends.map Tip.item) :=
  match xs with
  | [] => by
      refine ⟨c.ends, ?_, free.2⟩
      rw [Tip.items, connectAll, Tip.portsAll, edgesTo, List.map_nil, adding, List.append_nil]
      rfl
  | x :: xs => by
      let next : Builder :=
        { c.adding (edgesTo s x.ports) with ends := .name s.name :: ends.map Tip.item }
      obtain ⟨e, performed, free'⟩ :=
        perform_connectAll_open sound lt real next ⟨free.1, .inr rfl⟩ xs
      refine ⟨e, ?_, free'⟩
      rw [Tip.items, connectAll, perform_bind_ok (perform_edition c), Bool.false_and,
        perform_bind_ok (perform_connect_open sound lt real c free x), performed, Tip.portsAll]
      simp [next, adding, edgesTo]

end

end

theorem Encodes.perform_atIfLevel (h : d.Encodes b) :
    b.perform atIfLevel = (.ok (d.branches.head?.map Prod.fst == some d.level), b) := by
  unfold atIfLevel
  rw [perform_bind_ok (perform_get b), h.ifLevels, h.level, List.head?_map]
  rfl

theorem Encodes.perform_beginsApart (h : d.Encodes b) {last : Tip} (sound : last.Sound d.count) :
    b.perform (beginsApart last.item) = (.ok (d.apart last), b) := by
  have isThen := Tip.startsWith_item sound .condition
  have isLoop := Tip.startsWith_item sound .loop
  change last.item.startsWith "i" = _ at isThen
  change last.item.startsWith "l" = _ at isLoop
  have rest (isElse : Bool) : b.perform (if (b.forLevels.head? == some b.level) = true then do
        let isLoop ← (liftM (Except.ok (Tip.hasRole .loop last) : Except Mishap Bool) : Move Bool)
        Pure.pure (Tip.hasRole .condition last || isElse || isLoop)
      else do
        let isLoop ← (Pure.pure false : Move Bool)
        Pure.pure (Tip.hasRole .condition last || isElse || isLoop)) =
      (.ok (Tip.hasRole .condition last || isElse ||
        (d.loops.head? == some d.level && last.hasRole .loop)), b) := by
    rw [h.forLevels, h.level]
    split
    · next here =>
      rw [perform_bind_ok (perform_lift b _), here]
      rfl
    · next away =>
      rw [Bool.not_eq_true] at away
      rw [away]
      rfl
  unfold beginsApart
  rw [perform_bind_ok (perform_get b), h.edition]
  simp only [isThen, isLoop]
  rw [perform_bind_ok (perform_lift b _), perform_bind_ok h.perform_atIfLevel]
  have first := perform_innermostIf b
  rw [h.ifs] at first
  unfold apart beginsElse
  cases branches : d.branches with
  | nil => exact rest false
  | cons x xs =>
      obtain ⟨level, kind⟩ := x
      rw [branches] at first
      by_cases here : level = d.level
      · rw [if_pos (by simp [here]), perform_bind_ok first]
        cases kind with
        | thenOnly => exact rest false
        | thenElse =>
            have ends := h.ends
            have known := h.numbered.ends
            rw [if_pos rfl]
            rcases split : d.ends with _ | ⟨y, _ | ⟨z, zs⟩⟩
            · rw [ends, split]
              exact rest false
            · rw [ends, split]
              exact rest false
            · rw [split] at known
              have isElse := Tip.startsWith_item (known z (by simp)) .condition
              change z.item.startsWith "i" = _ at isElse
              rw [ends, split]
              simp only [List.map_cons, isElse]
              rw [perform_bind_ok (perform_lift b _), rest]
              simp [here]
      · rw [if_neg (by simp [here])]
        refine (rest false).trans ?_
        have away : (level == d.level) = false := beq_eq_false_iff_ne.mpr here
        cases kind <;> rcases d.ends with _ | ⟨y, _ | ⟨z, zs⟩⟩ <;> simp [away]

/-- A move gives the value and a builder with the texts of the sketch, or it is stopped and there is
no sketch. -/
def Agrees {α : Type} (a : α) (r : Except Mishap α × Builder) : Option Sketch → Prop
  | some d => ∃ c, r = (.ok a, c) ∧ d.Encodes c
  | none => ∃ e c, r = (.error e, c)

theorem Agrees.bind {α β : Type} {a : α} {v : β} {m : Move α} {f : α → Move β} {o : Option Sketch}
    {g : Sketch → Option Sketch} (first : Agrees a (b.perform m) o)
    (next : ∀ d c, o = some d → d.Encodes c → Agrees v (c.perform (f a)) (g d)) :
    Agrees v (b.perform (m >>= f)) (o.bind g) := by
  cases o with
  | none =>
      obtain ⟨e, c, stopped⟩ := first
      exact ⟨e, c, perform_bind_error stopped f⟩
  | some d =>
      obtain ⟨c, done, encodes⟩ := first
      rw [perform_bind_ok done]
      exact next d c rfl encodes

/-- A step that cannot fail comes before the others. -/
theorem Agrees.after {α β : Type} {a : α} {v : β} {m : Move α} {f : α → Move β} {o : Option Sketch}
    {c : Builder} (done : b.perform m = (.ok a, c)) (next : Agrees v (c.perform (f a)) o) :
    Agrees v (b.perform (m >>= f)) o := by
  rw [perform_bind_ok done]
  exact next

theorem mem_addTo {x y : Tip} {stack : List Tip} (h : x ∈ y.addTo stack) : x = y ∨ x ∈ stack := by
  cases stack with
  | nil => exact .inl (List.mem_singleton.mp h)
  | cons z zs =>
      rw [Tip.addTo] at h
      split at h
      · exact .inr h
      · exact List.mem_cons.mp h

theorem fresh_addTo {stack : List Tip} {n : Nat} (sound : ∀ x ∈ stack, x.Sound n) {s : Spot}
    (lt : n < s.number) :
    (Item.name s.name).addTo (stack.map Tip.item) = (Tip.spot s :: stack).map Tip.item := by
  cases stack with
  | nil => rfl
  | cons x xs =>
      obtain ⟨absent, differs⟩ := fresh_item (sound x List.mem_cons_self) lt
      have free : (Item.name s.name).isTop (x.item :: xs.map Tip.item) = false := by
        rw [Item.isTop, absent, Bool.false_or, beq_eq_false_iff_ne]
        exact Ne.symm differs
      rw [List.map_cons, Item.addTo, free]
      rfl

section

variable {β : Type} {v : β}

theorem Encodes.bind_popFirst (h : d.Encodes b) {f : Item → Move β}
    {g : Spot × Sketch → Option Sketch}
    (next : ∀ s d' c, d.popFirst = some (s, d') → d'.count = d.count → d'.Encodes c →
      Agrees v (c.perform (f (.name s.name))) (g (s, d'))) :
    Agrees v (b.perform (Move.popFirst >>= f)) (d.popFirst.bind g) := by
  have popped := perform_popFirst b
  rw [h.firsts] at popped
  cases split : d.firsts with
  | nil =>
      rw [split] at popped
      have none : d.popFirst = none := by rw [Sketch.popFirst, split]
      rw [none]
      exact ⟨_, _, perform_bind_error popped f⟩
  | cons s rest =>
      rw [split] at popped
      have some := popFirst_eq_some.mpr ⟨rest, split, rfl⟩
      rw [perform_bind_ok popped, some]
      exact next s _ _ some rfl { h with firsts := rfl, numbered := { h.numbered with } }

theorem Encodes.bind_popLast (h : d.Encodes b) {f : Item → Move β}
    {g : Tip × Sketch → Option Sketch}
    (next : ∀ x d' c, d.popLast = some (x, d') → d'.count = d.count → x.Sound d.count →
      d'.Encodes c → Agrees v (c.perform (f x.item)) (g (x, d'))) :
    Agrees v (b.perform (Move.popLast >>= f)) (d.popLast.bind g) := by
  have popped := perform_popLast b
  have sound := h.numbered.lasts
  rw [h.lasts] at popped
  cases split : d.lasts with
  | nil =>
      rw [split] at popped
      have none : d.popLast = none := by rw [Sketch.popLast, split]
      rw [none]
      exact ⟨_, _, perform_bind_error popped f⟩
  | cons x rest =>
      rw [split] at popped sound
      have some := popLast_eq_some.mpr ⟨rest, split, rfl⟩
      rw [perform_bind_ok popped, some]
      exact next x _ _ some rfl (sound x List.mem_cons_self) { h with
        lasts := rfl
        numbered := { h.numbered with lasts := fun y hy => sound y (List.mem_cons_of_mem x hy) } }

theorem Encodes.bind_popEnd (h : d.Encodes b) {f : Item → Move β} {g : Tip × Sketch → Option Sketch}
    (next : ∀ x d' c, d.popEnd = some (x, d') → d'.count = d.count → d'.Encodes c →
      Agrees v (c.perform (f x.item)) (g (x, d'))) :
    Agrees v (b.perform (Move.popEnd >>= f)) (d.popEnd.bind g) := by
  have popped := perform_popEnd b
  have sound := h.numbered.ends
  rw [h.ends] at popped
  cases split : d.ends with
  | nil =>
      rw [split] at popped
      have none : d.popEnd = none := by rw [Sketch.popEnd, split]
      rw [none]
      exact ⟨_, _, perform_bind_error popped f⟩
  | cons x rest =>
      rw [split] at popped sound
      have some := popEnd_eq_some.mpr ⟨rest, split, rfl⟩
      rw [perform_bind_ok popped, some]
      exact next x _ _ some rfl { h with
        ends := rfl
        numbered := { h.numbered with ends := fun y hy => sound y (List.mem_cons_of_mem x hy) } }

theorem Encodes.bind_advance (h : d.Encodes b) {s : Spot} {f : Item → Move β}
    {g : Spot → Option Sketch}
    (next : ∀ t, d.next? s = some t → Agrees v (b.perform (f (.name t.name))) (g t)) :
    Agrees v (b.perform (advance (.name s.name) >>= f)) ((d.next? s).bind g) := by
  have advanced := h.perform_advance s
  cases there : d.next? s with
  | none =>
      rw [there] at advanced
      obtain ⟨e, stopped⟩ := advanced
      exact ⟨e, b, perform_bind_error stopped f⟩
  | some t =>
      rw [there] at advanced
      exact Agrees.after advanced (next t there)

end

/-- A tip on top of others that are sound. -/
theorem sound_cons {n : Nat} {x : Tip} {stack : List Tip} (hx : x.Sound n)
    (sound : ∀ y ∈ stack, y.Sound n) : ∀ y ∈ x :: stack, y.Sound n := by
  intro y hy
  rcases List.mem_cons.mp hy with rfl | old
  · exact hx
  · exact sound y old

theorem Encodes.perform_settle (h : d.Encodes b) {s : Spot} {n : Nat} (nonempty : d.lasts ≠ [])
    (lasts : ∀ x ∈ d.lasts, x.Sound n) (ends : ∀ x ∈ d.ends, x.Sound n) (lt : n < s.number)
    (le : s.number ≤ d.count) (real : s.role ≠ .dummy) :
    Agrees () (b.perform (Move.settle s.name)) (d.settle s) := by
  have here : (Tip.spot s).Sound d.count := Tip.sound_port le
  have unpack : d.settle s = d.popLast.bind fun p => d.settle s := by
    obtain ⟨last, rest, split⟩ := List.exists_cons_of_ne_nil nonempty
    rw [popLast_eq_some.mpr ⟨rest, split, rfl⟩, Option.bind_some]
  rw [unpack]
  unfold Move.settle
  refine h.bind_popLast fun last d' c popped _ lastSound hc => ?_
  obtain ⟨rest, split, rfl⟩ := popLast_eq_some.mp popped
  rw [split] at lasts
  have restSound : ∀ x ∈ rest, x.Sound n := fun x hx => lasts x (List.mem_cons_of_mem last hx)
  refine Agrees.after (hc.perform_beginsApart lastSound) ?_
  have same : apart { d with lasts := rest } last = d.apart last := rfl
  rw [same]
  cases left : d.apart last with
  | true =>
    rw [if_pos rfl, settle_apart s split left]
    have sound : ∀ x ∈ last.addTo rest, x.Sound n := fun x hx =>
      (mem_addTo hx).elim (fun e => e ▸ lasts last List.mem_cons_self) (restSound x)
    refine ⟨_, rfl, { hc with
      lasts := ?_, ends := ?_, numbered := { hc.numbered with lasts := ?_, ends := ?_ } }⟩
    · change (Item.name s.name).addTo (last.item.addTo c.lasts) = _
      rw [hc.lasts, ← Tip.addTo_item, fresh_addTo sound lt]
    · change Item.name s.name :: c.ends = _
      rw [hc.ends]
      rfl
    · exact sound_cons here fun x hx => (sound x hx).mono (Nat.le_of_lt (Nat.lt_of_lt_of_le lt le))
    · exact sound_cons here hc.numbered.ends
  | false =>
    have unpack : d.settle s = (popEnd { d with lasts := rest }).bind fun p => d.settle s := by
      cases endsSplit : d.ends with
      | nil => exact settle_stuck s split left endsSplit
      | cons tail others => rfl
    rw [if_neg Bool.false_ne_true, unpack]
    refine hc.bind_popEnd fun tail d' e popped' _ he => ?_
    obtain ⟨others, endsSplit, rfl⟩ := popEnd_eq_some.mp popped'
    rw [settle_joined s split left endsSplit]
    rw [show d.ends = tail :: others from endsSplit] at ends
    have othersSound : ∀ x ∈ others, x.Sound n := fun x hx => ends x (List.mem_cons_of_mem tail hx)
    refine Agrees.after
      (perform_connect_open othersSound lt real e ⟨he.edition, .inl he.ends⟩ tail) ?_
    refine ⟨_, rfl, { he with
      lasts := ?_, ends := rfl, graph := ?_,
      numbered := { he.numbered with
        lasts := sound_cons here he.numbered.lasts, ends := sound_cons here he.numbered.ends } }⟩
    · change (Item.name s.name).addTo e.lasts = _
      rw [he.lasts, fresh_addTo restSound lt]
    · change e.graph ++ _ = _
      rw [he.graph, edgesTo, List.map_append, List.map_map]
      rfl

theorem Encodes.perform_blockKind (h : d.Encodes b) :
    b.perform blockKind = (.ok d.blockRole.letters, b) := by
  unfold blockKind blockRole
  rw [perform_bind_ok (perform_get b), h.nodes, h.ifs, h.edition, List.getLast?_map]
  cases d.nodes.getLast? with
  | none => rfl
  | some s =>
      cases branches : d.branches with
      | nil => rfl
      | cons x xs =>
          obtain ⟨level, kind⟩ := x
          have letter := s.startsWith_name .condition
          change (Item.name s.name).startsWith "i" = _ at letter
          simp only [Option.map_some, List.map_cons, letter]
          rw [perform_bind_ok (perform_lift b _)]
          by_cases condition : s.role = .condition
          · simp only [condition, decide_true, if_true]
            rfl
          · simp only [condition, decide_false, Bool.false_eq_true, if_false]
            rw [perform_bind_ok h.perform_atIfLevel, branches]
            by_cases here : level = d.level ∧ kind = .thenElse
            · have lasts := h.lasts
              have known := h.numbered.lasts
              rw [if_pos (by simp [here]), if_pos here]
              rcases split : d.lasts with _ | ⟨y, _ | ⟨z, zs⟩⟩
              · rw [lasts, split]
                rfl
              · rw [lasts, split]
                rfl
              · rw [split] at known
                have isElse := Tip.startsWith_item (known z (by simp)) .condition
                change z.item.startsWith "i" = _ at isElse
                rw [lasts, split]
                simp only [List.map_cons, isElse]
                rw [perform_bind_ok (perform_lift b _)]
                cases z.hasRole .condition <;> rfl
            · rw [if_neg (by simpa using here), if_neg here]
              rfl

/-- A move is followed by one that cannot fail. -/
theorem Agrees.map {α β : Type} {a : α} {v : β} {m : Move α} {f : α → Move β} {o : Option Sketch}
    {g : Sketch → Sketch} (first : Agrees a (b.perform m) o)
    (next : ∀ (d : Sketch) (c : Builder), o = some d → d.Encodes c →
      ∃ e, c.perform (f a) = (.ok v, e) ∧ (g d).Encodes e) :
    Agrees v (b.perform (m >>= f)) (o.map g) := by
  cases o with
  | none =>
      obtain ⟨e, c, stopped⟩ := first
      exact ⟨e, c, perform_bind_error stopped f⟩
  | some d =>
      obtain ⟨c, done, encodes⟩ := first
      rw [perform_bind_ok done]
      exact next d c rfl encodes

theorem Encodes.perform_draw (h : d.Encodes b) : ∃ c, b.perform draw = (.ok (), c) ∧ d.Encodes c :=
  ⟨_, Builder.perform_draw b, { h with }⟩

theorem Numbered.declare {role : Role} {text shape : String} (h : d.Numbered) :
    (d.declare role text shape).Numbered where
  rising := by
    refine List.pairwise_append.mpr ⟨h.rising, List.pairwise_singleton _ _, ?_⟩
    intro s hs t ht
    cases List.mem_singleton.mp ht
    exact Nat.lt_succ_of_le (h.bounded s hs)
  bounded := by
    intro s hs
    rcases List.mem_append.mp hs with old | new
    · exact Nat.le_succ_of_le (h.bounded s old)
    · cases List.mem_singleton.mp new
      exact Nat.le_refl _
  lasts := fun x hx => (h.lasts x hx).mono (Nat.le_succ _)
  ends := fun x hx => (h.ends x hx).mono (Nat.le_succ _)

theorem Encodes.declare (h : d.Encodes b) (role : Role) (text shape : String) :
    (d.declare role text shape).Encodes
      (declared b (Spot.name ⟨role, d.count + 1⟩) text shape) :=
  { h with
    count := by change b.count + 1 = _; rw [h.count]; rfl
    nodes := by change b.nodes ++ _ = _; rw [h.nodes, Sketch.declare, List.map_append]; rfl
    graph := by change b.graph ++ _ = _; rw [h.graph, Sketch.declare, List.map_append]; rfl
    numbered := h.numbered.declare }

theorem Encodes.agrees_place (h : d.Encodes b) {kind : String} {role : Role} (real : role ≠ .dummy)
    (told : { b with count := b.count + 1 }.perform (nodeKind kind) =
      (.ok role.letters, { b with count := b.count + 1 }))
    {content text : String} (shape : String)
    (shown : text = if content.isEmpty && holdsText role.letters then d.held else content) :
    Agrees (Spot.name ⟨role, d.count + 1⟩) (b.perform (newNode kind content shape))
      (d.place role text shape) := by
  have name : Spot.name ⟨role, d.count + 1⟩ = role.letters ++ toString (b.count + 1) := by
    rw [h.count, Spot.name]
  have label : nodeLabel b.edition b.held content role.letters (Spot.name ⟨role, d.count + 1⟩) =
      text := by
    simp only [nodeLabel, h.edition, h.held, shown, reduceCtorEq, if_false]
  rw [perform_newNode told name, label, if_pos h.edition]
  have made := h.declare role text shape
  generalize declared b _ text shape = c at made
  have finish (d' : Sketch) (c : Builder) (hc : d'.Encodes c) :
      ∃ e, c.perform (do
        draw
        Pure.pure (Spot.name ⟨role, d.count + 1⟩)) = (.ok (Spot.name ⟨role, d.count + 1⟩), e) ∧
          d'.Encodes e := by
    obtain ⟨e, drawn, he⟩ := hc.perform_draw
    exact ⟨e, perform_bind_ok drawn _, he⟩
  unfold place
  by_cases empty : d.lasts = []
  · rw [if_pos (by rw [h.lasts, empty]; rfl), settle_first (d := d.declare role text shape) _ empty]
    exact Agrees.after (perform_pure _ _) (finish _ _ made)
  · rw [if_neg (by rw [h.lasts, List.isEmpty_map, List.isEmpty_iff]; exact empty),
      ← Option.map_id' (x := settle _ _)]
    exact Agrees.map (made.perform_settle empty h.numbered.lasts h.numbered.ends
      (Nat.lt_succ_self _) (Nat.le_refl _) real) fun d' c _ hc => finish d' c hc

theorem Encodes.agrees_newNode (h : d.Encodes b) (role : Role) (real : role ≠ .dummy)
    (chosen : holdsText role.letters = false) (text shape : String) :
    Agrees (Spot.name ⟨role, d.count + 1⟩) (b.perform (newNode role.letters text shape))
      (d.place role text shape) := by
  have other : role.letters ≠ "b" := by
    intro same
    rw [same] at chosen
    exact absurd chosen (by decide)
  refine h.agrees_place real ?_ shape (by simp [chosen])
  rw [nodeKind, if_neg other]
  rfl

theorem blockRole_real (d : Sketch) :
    d.blockRole ≠ .dummy ∧ holdsText d.blockRole.letters = true := by
  unfold blockRole
  split
  · split
    · decide
    · split
      · split
        · split <;> decide
        · decide
      · decide
  · decide

theorem Encodes.counted (h : d.Encodes b) :
    Encodes { d with count := d.count + 1 } { b with count := b.count + 1 } :=
  { h with
    count := by rw [h.count]
    numbered :=
      { h.numbered with
        bounded := fun s hs => Nat.le_succ_of_le (h.numbered.bounded s hs)
        lasts := fun x hx => (h.numbered.lasts x hx).mono (Nat.le_succ _)
        ends := fun x hx => (h.numbered.ends x hx).mono (Nat.le_succ _) } }

theorem Encodes.agrees_newBlock (h : d.Encodes b) {content text : String} (shape : String)
    (shown : text = if content.isEmpty then d.held else content) :
    Agrees (Spot.name ⟨d.blockRole, d.count + 1⟩) (b.perform (newNode "b" content shape))
      (d.place d.blockRole text shape) := by
  obtain ⟨real, holds⟩ := d.blockRole_real
  refine h.agrees_place real ?_ shape (by simp [holds, shown])
  rw [nodeKind, if_pos rfl]
  exact h.counted.perform_blockKind

theorem Encodes.agrees_flush (h : d.Encodes b) : Agrees () (b.perform Move.flush) d.flush := by
  unfold Move.flush Sketch.flush
  rw [perform_bind_ok (perform_get b), h.held]
  by_cases empty : d.held = ""
  · rw [if_neg (by simp [empty]), if_pos empty]
    refine ⟨_, rfl, { h with held := ?_ }⟩
    exact empty.symm
  · rw [if_pos (by simpa using empty), if_neg empty]
    refine (h.agrees_newBlock "box" (by simp)).map fun d' c _ hc => ?_
    exact ⟨_, rfl, { hc with held := rfl, numbered := { hc.numbered with } }⟩

theorem Encodes.agrees_leaveBlock (h : d.Encodes b) :
    Agrees () (b.perform Move.leaveBlock) d.leaveBlock := by
  have lower : Encodes { d with level := d.level - 1 } { b with level := b.level - 1 } :=
    { h with level := by rw [h.level], numbered := { h.numbered with } }
  exact Agrees.after (perform_modify b _) lower.agrees_flush

theorem addTo_name (s : Spot) (stack : List Spot) :
    (Item.name s.name).addTo (stack.map fun s => .name s.name) =
      (s.addTo stack).map fun s => .name s.name := by
  cases stack with
  | nil => rfl
  | cons t ts =>
      by_cases same : t = s
      · subst same
        simp [Spot.addTo, Item.addTo, Item.isTop]
      · have differs : t.name ≠ s.name := fun h => same (Spot.name_injective h)
        simp [Spot.addTo, Item.addTo, Item.isTop, Item.members, same, differs]

theorem childText_one {ts : List Tree} {t : Tree} (h : ts[1]? = some t) :
    childText ts 1 = .ok t.text := by
  have nonempty : ts.isEmpty = false := by
    cases ts with
    | nil => cases h
    | cons _ _ => rfl
  simp only [childText, child, nonempty, Bool.false_eq_true, if_false, h]
  rfl

theorem Encodes.agrees_enterFunction (h : d.Encodes b) {ts : List Tree} {name : Tree}
    (second : ts[1]? = some name) :
    Agrees () (b.perform (Move.enterFunction ts)) (d.enterFunction name.text) := by
  unfold Move.enterFunction Sketch.enterFunction
  refine Agrees.after (perform_lift b _ |>.trans (by rw [childText_one second])) ?_
  refine (h.agrees_newNode .entry (by decide) (by decide) name.text "box").map
    fun d' c placed hc => ?_
  obtain ⟨lasts, ends, strokes, rfl⟩ := place_frame placed
  refine ⟨_, rfl, { hc with ends := ?_, numbered := { hc.numbered with ends := ?_ } }⟩
  · change _ :: c.ends = _
    rw [hc.ends]
    rfl
  · exact sound_cons (Tip.sound_port (Nat.le_refl _)) hc.numbered.ends

theorem Encodes.agrees_leaveFunction (h : d.Encodes b) {ts : List Tree} {name : Tree}
    (second : ts[1]? = some name) :
    Agrees () (b.perform (Move.leaveFunction ts)) (d.leaveFunction name.text) := by
  unfold Move.leaveFunction Sketch.leaveFunction
  refine Agrees.after (perform_lift b _ |>.trans (by rw [childText_one second])) ?_
  rw [← Option.map_id' (x := place _ _ _ _)]
  refine (h.agrees_newBlock "box" (by simp)).map fun d' c _ hc => ?_
  exact ⟨c, rfl, hc⟩

theorem Encodes.agrees_enterBlock (h : d.Encodes b) :
    Agrees () (b.perform Move.enterBlock) d.enterBlock := by
  have raised : Encodes { d with level := d.level + 1 } { b with level := b.level + 1 } :=
    { h with level := by rw [h.level], numbered := { h.numbered with } }
  unfold Move.enterBlock Sketch.enterBlock
  refine Agrees.after (perform_modify b _) ?_
  generalize ({ b with level := b.level + 1 } : Builder) = c at raised
  have newest := perform_lastNode c
  rw [raised.nodes, List.getLast?_map] at newest
  cases last : d.nodes.getLast? with
  | none =>
      rw [last] at newest
      exact ⟨_, _, perform_bind_error newest _⟩
  | some s =>
      rw [last] at newest
      have letter := s.startsWith_name .entry
      change (Item.name s.name).startsWith "f" = _ at letter
      have known : (Tip.spot s).Sound d.count :=
        Tip.sound_port (h.numbered.bounded s (List.mem_of_getLast? last))
      have sound : ∀ x ∈ (Tip.spot s).addTo d.lasts, x.Sound d.count := fun x hx =>
        (mem_addTo hx).elim (fun e => e ▸ known) (h.numbered.lasts x)
      have lasts : (Item.name s.name).addTo c.lasts =
          ((Tip.spot s).addTo d.lasts).map Tip.item := by
        rw [raised.lasts, Tip.addTo_item]
        rfl
      refine Agrees.after newest (Agrees.after ((perform_lift _ _).trans (by rw [letter])) ?_)
      by_cases entry : s.role = .entry
      · simp only [entry, decide_true, Bool.not_true, Bool.false_eq_true, if_false]
        refine ⟨_, rfl,
          { raised with lasts, firsts := ?_, numbered := { raised.numbered with lasts := sound } }⟩
        change c.firsts = List.map _ (if s.role = .entry then d.firsts else s.addTo d.firsts)
        rw [if_pos entry]
        exact raised.firsts
      · simp only [entry, decide_false, Bool.not_false, if_true]
        refine ⟨_, rfl,
          { raised with lasts, firsts := ?_, numbered := { raised.numbered with lasts := sound } }⟩
        change _ = List.map _ (if s.role = .entry then d.firsts else s.addTo d.firsts)
        rw [if_neg entry, ← addTo_name]
        change (Item.name s.name).addTo c.firsts = _
        rw [raised.firsts]

theorem Encodes.agrees_enterIf (h : d.Encodes b) {ts : List Tree} {condition : Tree}
    (second : ts[1]? = some condition) (kind : Branches)
    (length : ts.length = match kind with | .thenOnly => 3 | .thenElse => 5) :
    Agrees () (b.perform (Move.enterIf ts)) (d.enterIf condition.text kind) := by
  unfold Move.enterIf Sketch.enterIf
  refine h.agrees_flush.bind fun d₁ b₁ _ h₁ => ?_
  refine Agrees.after ((perform_lift b₁ _).trans (by rw [childText_one second])) ?_
  refine (h₁.agrees_newNode .condition (by decide) (by decide) condition.text
    "diamond").bind fun d₂ b₂ placed h₂ => ?_
  obtain ⟨lasts, ends, strokes, rfl⟩ := place_frame placed
  have firsts : (Item.name (Spot.name ⟨.condition, d₁.count + 1⟩)).addTo b₂.firsts =
      (Spot.addTo ⟨.condition, d₁.count + 1⟩ d₁.firsts).map fun s => .name s.name := by
    rw [← addTo_name, h₂.firsts]
    rfl
  have levels : b₂.level :: b₂.ifLevels = ((d₁.level, kind) :: d₁.branches).map Prod.fst := by
    rw [h₂.level, h₂.ifLevels]
    rfl
  have ifs : kind :: b₂.ifs = ((d₁.level, kind) :: d₁.branches).map Prod.snd := by
    rw [h₂.ifs]
    rfl
  rw [perform_bind_ok (perform_edition b₂), h₂.edition, if_pos rfl]
  cases kind with
  | thenOnly =>
      simp only [length, if_true]
      exact ⟨_, rfl, { h₂ with firsts, ifLevels := levels, ifs, numbered := { h₂.numbered with } }⟩
  | thenElse =>
      simp only [length, if_true]
      exact ⟨_, rfl, { h₂ with firsts, ifLevels := levels, ifs, numbered := { h₂.numbered with } }⟩

theorem Encodes.agrees_enterFor (h : d.Encodes b) {ts : List Tree} {condition : Tree}
    (second : ts[1]? = some condition) :
    Agrees () (b.perform (Move.enterFor ts)) (d.enterFor condition.text) := by
  unfold Move.enterFor Sketch.enterFor
  refine h.agrees_flush.bind fun d₁ b₁ _ h₁ => ?_
  refine Agrees.after ((perform_lift b₁ _).trans (by rw [childText_one second])) ?_
  rw [perform_bind_ok (perform_edition b₁), h₁.edition]
  refine (h₁.agrees_newNode .loop (by decide) (by decide) ("for " ++ condition.text)
    "egg").bind fun d₂ b₂ placed h₂ => ?_
  obtain ⟨lasts, ends, strokes, rfl⟩ := place_frame placed
  refine ⟨_, rfl, { h₂ with forLevels := ?_, numbered := { h₂.numbered with } }⟩
  change (b₂.count : Int) :: b₂.forLevels = _
  rw [h₂.count, h₂.forLevels]

theorem Agrees.step {α β : Type} {a : α} {v : β} {m : Move α} {f : α → Move β} {o : Option Sketch}
    {d' : Sketch} (done : ∃ c, b.perform m = (.ok a, c) ∧ d'.Encodes c)
    (next : ∀ c, d'.Encodes c → Agrees v (c.perform (f a)) o) :
    Agrees v (b.perform (m >>= f)) o := by
  obtain ⟨c, performed, hc⟩ := done
  exact Agrees.after performed (next c hc)

theorem Encodes.dropLast (h : d.Encodes b) (x : Tip) :
    ∃ c, b.perform (Move.dropLast x.item) = (.ok (), c) ∧
      Encodes { d with lasts := d.lasts.erase x } c :=
  ⟨_, perform_dropLast b _, { h with
    lasts := by rw [h.lasts, Tip.erase_item]
    numbered :=
      { h.numbered with lasts := fun y hy => h.numbered.lasts y (List.mem_of_mem_erase hy) } }⟩

theorem Encodes.addLast (h : d.Encodes b) {x : Tip} (sound : x.Sound d.count) :
    ∃ c, b.perform (Move.addLast x.item) = (.ok (), c) ∧
      Encodes { d with lasts := x.addTo d.lasts } c :=
  ⟨_, perform_addLast b _, { h with
    lasts := by rw [h.lasts, Tip.addTo_item]
    numbered := { h.numbered with
      lasts := fun y hy => (mem_addTo hy).elim (fun e => e ▸ sound) (h.numbered.lasts y) } }⟩

theorem Encodes.addFirst (h : d.Encodes b) (s : Spot) :
    ∃ c, b.perform (Move.addFirst (.name s.name)) = (.ok (), c) ∧
      Encodes { d with firsts := s.addTo d.firsts } c :=
  ⟨_, perform_addFirst b _, { h with
    firsts := by rw [h.firsts, addTo_name]
    numbered := { h.numbered with } }⟩

theorem Encodes.pushEnd (h : d.Encodes b) {x : Tip} (sound : x.Sound d.count) :
    ∃ c, b.perform (Move.pushEnd x.item) = (.ok (), c) ∧ Encodes { d with ends := x :: d.ends } c :=
  ⟨_, perform_pushEnd b _, { h with
    ends := by rw [h.ends]; rfl
    numbered := { h.numbered with ends := sound_cons sound h.numbered.ends } }⟩

theorem Encodes.adding (h : d.Encodes b) (strokes : List Stroke) :
    Encodes { d with strokes := d.strokes ++ strokes } (b.adding (strokes.map Stroke.statement)) :=
  { h with
    graph := by rw [Builder.adding, h.graph, List.map_append]
    numbered := { h.numbered with } }

theorem Encodes.connectPort (h : d.Encodes b) (p : Port) (s : Spot)
    (attributes : List (String × String)) :
    ∃ c, b.perform (connect (.name p.label) (.name s.name) true attributes) = (.ok (), c) ∧
      Encodes { d with strokes := d.strokes ++ [.edge p s attributes] } c :=
  ⟨_, perform_connect_port b p s attributes, h.adding [.edge p s attributes]⟩

theorem sound_pair {n : Nat} {x y : Tip} (hx : x.Sound n) (hy : y.Sound n) :
    (Tip.group [x, y]).Sound n :=
  Tip.sound_group (by simp) (sound_cons hx (sound_cons hy (by simp)))

theorem Encodes.agrees_leaveIfElse (h : d.Encodes b) :
    Agrees () (b.perform Move.leaveIfElse) d.leaveIfElse := by
  unfold Move.leaveIfElse Sketch.leaveIfElse
  refine h.bind_popFirst fun n d₁ b₁ _ count₁ h₁ => h₁.bind_advance fun elseFirst _ => ?_
  refine h₁.bind_popLast fun no d₂ b₂ _ count₂ noSound h₂ => ?_
  unfold thenBranch
  rw [bind_assoc, perform_bind_ok (perform_edition b₂), h₂.edition]
  simp only [bind_assoc, pure_bind]
  refine h₂.bind_popFirst fun c d₃ b₃ _ count₃ h₃ => h₃.bind_advance fun thenFirst _ => ?_
  unfold popBranchEnd
  simp only [bind_assoc, pure_bind]
  refine h₃.bind_popLast fun yes d₄ b₄ _ count₄ yesSound h₄ => ?_
  rw [← count₄] at yesSound
  rw [← count₂, ← count₃, ← count₄] at noSound
  refine Agrees.step (h₄.dropLast yes) fun b₅ h₅ => ?_
  rw [perform_bind_ok (perform_edition b₅), h₅.edition]
  refine Agrees.step (h₅.connectPort (.south c) thenFirst _) fun b₆ h₆ =>
    Agrees.step (h₆.connectPort (.south c) elseFirst _) fun b₇ h₇ =>
      Agrees.step (h₇.addLast (sound_pair yesSound noSound)) fun b₈ h₈ => ?_
  have h₈ : Encodes { d₄ with
      lasts := (Tip.group [yes, no]).addTo (d₄.lasts.erase yes)
      strokes := d₄.strokes ++
        [.edge (.south c) thenFirst [("label", "true"), ("headport", "n"), ("tailport", "w")]] ++
        [.edge (.south c) elseFirst
          [("label", "false"), ("headport", "n"), ("tailport", "e")]] } b₈ := h₈
  refine h₈.bind_popEnd fun _ d₉ b₉ _ count₉ h₉ => ?_
  refine h₉.bind_popEnd fun _ d₁₀ b₁₀ _ count₁₀ h₁₀ => ?_
  refine h₁₀.bind_popEnd fun _ d₁₁ b₁₁ _ count₁₁ h₁₁ => ?_
  rw [← count₉, ← count₁₀, ← count₁₁] at yesSound noSound
  rw [← Tip.join_item]
  exact h₁₁.pushEnd (Tip.sound_join yesSound noSound)

theorem Encodes.agrees_leaveIfThen (h : d.Encodes b) :
    Agrees () (b.perform Move.leaveIfThen) d.leaveIfThen := by
  unfold Move.leaveIfThen Sketch.leaveIfThen
  refine h.bind_popFirst fun n d₁ b₁ _ count₁ h₁ => h₁.bind_advance fun _ _ => ?_
  rw [perform_bind_ok (perform_edition b₁), h₁.edition]
  simp only
  refine h₁.bind_popFirst fun c d₂ b₂ _ count₂ h₂ => h₂.bind_advance fun thenFirst next => ?_
  unfold popBranchEnd
  simp only [bind_assoc, pure_bind]
  refine h₂.bind_popLast fun yes d₃ b₃ popped count₃ yesSound h₃ => ?_
  have next₃ : d₃.next? c = some thenFirst := by
    obtain ⟨rest, -, rfl⟩ := popLast_eq_some.mp popped
    exact next
  have here : c.number ≤ d₃.count := h₃.numbered.bounded c (mem_of_next? next₃).1
  rw [← count₃] at yesSound
  refine Agrees.step (h₃.dropLast yes) fun b₄ h₄ =>
    Agrees.after (h₄.perform_nodeBefore next₃)
      (Agrees.step (h₄.connectPort (.south c) thenFirst _) fun b₅ h₅ => ?_)
  refine h₅.bind_popEnd fun _ d₆ b₆ _ count₆ h₆ => ?_
  refine h₆.bind_popEnd fun _ d₇ b₇ _ count₇ h₇ => ?_
  rw [← count₆, ← count₇] at yesSound
  have east : (Tip.port (.east c)).Sound d₇.count := by
    rw [count₇, count₆]
    exact Tip.sound_port here
  exact Agrees.step (h₇.pushEnd (sound_pair east yesSound)) fun b₈ h₈ => h₈.addLast yesSound

theorem Encodes.agrees_popBranch (h : d.Encodes b) :
    Agrees () (b.perform (do
      let _ ← Move.popIf
      let _ ← Move.popIfLevel)) d.popBranch := by
  have ifs := perform_popIf b
  rw [h.ifs] at ifs
  unfold Sketch.popBranch
  cases split : d.branches with
  | nil =>
      rw [split] at ifs
      exact ⟨_, _, perform_bind_error ifs _⟩
  | cons x rest =>
      rw [split] at ifs
      obtain ⟨c, popped, levels, encodes⟩ : ∃ c, b.perform popIf = (.ok x.2, c) ∧
          c.ifLevels = (x :: rest).map Prod.fst ∧
          Encodes { d with branches := rest } { c with ifLevels := rest.map Prod.fst } :=
        ⟨_, ifs, by rw [← split]; exact h.ifLevels,
          { h with ifLevels := rfl, ifs := rfl, numbered := { h.numbered with } }⟩
      have taken := perform_popIfLevel c
      rw [levels] at taken
      rw [perform_bind_ok popped, perform_bind_ok taken]
      exact ⟨_, rfl, encodes⟩

theorem Encodes.agrees_leaveIf (h : d.Encodes b) {ts : List Tree} (kind : Branches)
    (length : ts.length = match kind with | .thenOnly => 3 | .thenElse => 5) :
    Agrees () (b.perform (Move.leaveIf ts)) (d.leaveIf kind) := by
  have rest (d' : Sketch) (c : Builder) (hc : d'.Encodes c) :
      Agrees () (c.perform (do
        draw
        let _ ← Move.popIf
        let _ ← Move.popIfLevel)) d'.popBranch :=
    Agrees.step hc.perform_draw fun e he => he.agrees_popBranch
  unfold Move.leaveIf Sketch.leaveIf
  cases kind with
  | thenOnly =>
      rw [if_neg (by rw [length]; decide)]
      exact h.agrees_leaveIfThen.bind fun d' c _ hc => rest d' c hc
  | thenElse =>
      rw [if_pos length]
      exact h.agrees_leaveIfElse.bind fun d' c _ hc => rest d' c hc

theorem Encodes.bind_popLoop {β : Type} {v : β} (h : d.Encodes b) {f : Int → Move β}
    {g : Sketch → Option Sketch}
    (next : ∀ n d' c, d.popLoop = some d' → d'.Encodes c → Agrees v (c.perform (f n)) (g d')) :
    Agrees v (b.perform (Move.popForLevel >>= f)) (d.popLoop.bind g) := by
  have popped := perform_popForLevel b
  rw [h.forLevels] at popped
  cases split : d.loops with
  | nil =>
      rw [split] at popped
      have none : d.popLoop = none := by rw [Sketch.popLoop, split]
      rw [none]
      exact ⟨_, _, perform_bind_error popped f⟩
  | cons n rest =>
      rw [split] at popped
      have some : d.popLoop = some { d with loops := rest } := by rw [Sketch.popLoop, split]
      rw [perform_bind_ok popped, some]
      exact next n _ _ some { h with forLevels := rfl, numbered := { h.numbered with } }

theorem Encodes.closeLoop (h : d.Encodes b) {last : Tip} (s : Spot) :
    ∃ c, b.perform (Move.closeLoop last.item s.name) = (.ok (), c) ∧
      (d.closeLoop last s).Encodes c := by
  unfold Move.closeLoop Sketch.closeLoop
  cases last with
  | port p => exact h.connectPort p s _
  | group xs =>
      obtain ⟨c, counted, hc⟩ : ∃ c, b.perform (modify fun b => { b with count := b.count + 1 }) =
        (.ok (), c) ∧
          Encodes { d with count := d.count + 1 } c := ⟨_, perform_modify b _, h.counted⟩
      have name : "d" ++ toString c.count = Spot.name ⟨.dummy, d.count + 1⟩ := by
        rw [hc.count]
        rfl
      have edges := hc.adding ((Tip.group xs).ports.map fun p => .edge p ⟨.dummy, d.count + 1⟩ [])
      obtain ⟨e, closed, he⟩ := edges.connectPort (.south ⟨.dummy, d.count + 1⟩) s
        [("headport", "w"), ("tailport", "w")]
      rw [List.map_map] at closed
      refine ⟨e, ?_, he⟩
      simp only [Tip.item, Item.isGroup, if_true]
      rw [perform_bind_ok counted, perform_bind_ok (perform_get c), name]
      exact (perform_bind_ok (perform_connect c hc.edition ⟨.dummy, d.count + 1⟩ (.group xs))
        _).trans closed

theorem le_closeLoop_count {n : Nat} (h : n ≤ d.count) (last : Tip) (s : Spot) :
    n ≤ (d.closeLoop last s).count := by
  cases last with
  | port p => exact h
  | group xs => exact Nat.le_succ_of_le h

theorem Encodes.agrees_leaveFor (h : d.Encodes b) :
    Agrees () (b.perform Move.leaveFor) d.leaveFor := by
  unfold Move.leaveFor Sketch.leaveFor
  rw [perform_bind_ok (perform_edition b), h.edition]
  refine h.bind_popLoop fun _ d₁ b₁ _ h₁ => ?_
  unfold loopBody popBranchEnd
  simp only [bind_assoc, pure_bind]
  refine h₁.bind_popFirst fun s d₂ b₂ _ _ h₂ => h₂.bind_advance fun first next => ?_
  refine h₂.bind_popLast fun last d₃ b₃ popped _ _ h₃ => ?_
  have next₃ : d₃.next? s = some first := by
    obtain ⟨rest, -, rfl⟩ := popLast_eq_some.mp popped
    exact next
  have here : s.number ≤ d₃.count := h₃.numbered.bounded s (mem_of_next? next₃).1
  refine Agrees.step (h₃.dropLast last) fun b₄ h₄ =>
    Agrees.after (h₄.perform_nodeBefore next₃)
      (Agrees.step (h₄.connectPort (.south s) first _) fun b₅ h₅ =>
        Agrees.step (h₅.closeLoop s) fun b₆ h₆ => ?_)
  refine h₆.bind_popEnd fun _ d₇ b₇ _ count₇ h₇ => ?_
  have east : (Tip.port (.east s)).Sound d₇.count := by
    rw [count₇]
    refine Tip.sound_port (le_closeLoop_count ?_ last s)
    exact here
  exact Agrees.step (h₇.pushEnd east) fun b₈ h₈ => Agrees.step h₈.perform_draw fun b₉ h₉ =>
    Agrees.step (h₉.addLast east) fun b₁₀ h₁₀ => h₁₀.addFirst s

end Sketch

end GoFlow
