import GoFlow.Proofs.Leaving
import Mathlib.Logic.Relation

/-! What hooks do to a builder. Each of them makes a few changes one after another, and may be
stopped in the middle of one. An invariant of either edition is kept along every walk if each change
keeps it. -/

namespace GoFlow

open Dot (Statement)
open Relation (ReflTransGen)
open Builder (Regular Leaves)
open Move (Settles declared nodeLabel)

namespace Builder

/-- What the builder connects. -/
def network (b : Builder) :
    Edition × Nat × List String × List Item × List Item × List Item × List Statement :=
  (b.edition, b.count, b.nodes, b.firsts, b.lasts, b.ends, b.graph)

theorem Rewrites.network {b c : Builder} (h : b.Rewrites c) : c.network = b.network :=
  (congrArg Builder.network h.blank : c.blank.network = b.blank.network)

end Builder

/-- A change of a builder. The text of a node has `T`, unless it was held back. If the change is not
`done`, the builder may have been stopped in the middle of it. -/
inductive Change (T : String → Prop) (done : Prop) (b : Builder) : Builder → Prop
  /-- Nothing changes of what is connected. The text held back is another one of lines. -/
  | aside {c : Builder} : c.network = b.network →
      (c.held = b.held ∨ c.held = "" ∨ Lined c.held) → Change T done b c
  | node {kind content shape name text : String} {lasts ends : List Item} {edges : List Statement}
      {drawings : Nat} {drawn : Option (List Statement)} : kind ∈ nodeKinds → T content →
      shape ∈ ["box", "diamond", "egg"] → name = kind ++ toString (b.count + 1) →
      text = nodeLabel b.edition b.held content kind name →
      Settles done name (declared b name text shape) lasts ends edges →
      Change T done b { b with
        count := b.count + 1
        nodes := b.nodes ++ [name]
        lasts := lasts
        ends := ends
        graph := b.graph ++ .node name text shape :: edges
        drawings := drawings
        drawn := drawn }
  /-- The node made last is put on a stack. -/
  | first {name : String} : b.nodes.getLast? = some name →
      Change T done b { b with firsts := (Item.name name).addTo b.firsts }
  | last {name : String} : b.nodes.getLast? = some name →
      Change T done b { b with lasts := (Item.name name).addTo b.lasts }
  | top {name : String} : b.nodes.getLast? = some name →
      Change T done b { b with ends := .name name :: b.ends }
  | branches {c : Builder} : Leaves done b.Branches b c → Change T done b c

/-- A change, or what is done when a loop is left. -/
def Progress (T : String → Prop) (done : Prop) (b c : Builder) : Prop :=
  Change T done b c ∨ Leaves done b.Turns b c

namespace Move.Settles

variable {done : Prop} {name : String} {b : Builder} {lasts ends : List Item}
  {edges : List Statement}

theorem weaken (h : Settles done name b lasts ends edges) :
    Settles False name b lasts ends edges := by
  cases h with
  | first none => exact .first none
  | apart some apart => exact .apart some apart
  | joined some top apart => exact .joined some top apart
  | stopped _ some => exact .stopped id some

theorem mem (h : Settles done name b lasts ends edges) :
    (∀ x ∈ lasts, x = .name name ∨ x ∈ b.lasts) ∧ (∀ x ∈ ends, x = .name name ∨ x ∈ b.ends) ∧
      ∀ e ∈ edges, ∃ tail, b.ends.head? = some tail ∧ ∃ s ∈ tail.names, e = link s name [] := by
  cases h with
  | first none => exact ⟨by rintro x ⟨⟩, fun x hx => .inr hx, by rintro e ⟨⟩⟩
  | @apart last below split _ =>
      refine ⟨fun x hx => ?_, fun x hx => List.mem_cons.mp hx, by rintro e ⟨⟩⟩
      rw [split]
      exact (Item.mem_addTo hx).imp_right fun old => List.mem_cons.mpr (Item.mem_addTo old)
  | @joined last tail below under split top _ =>
      refine ⟨fun x hx => ?_, fun x hx => ?_, fun e he => ?_⟩
      · rw [split]
        exact (Item.mem_addTo hx).imp_right (List.mem_cons_of_mem last)
      · rw [top]
        exact (mem_noted hx).imp_right (List.mem_cons_of_mem tail)
      · obtain ⟨s, hs, rfl⟩ := List.mem_map.mp he
        exact ⟨tail, by rw [top]; rfl, s, hs, rfl⟩
  | @stopped last below _ split =>
      refine ⟨fun x hx => ?_, fun x hx => .inr hx, by rintro e ⟨⟩⟩
      rw [split]
      exact .inr (List.mem_cons_of_mem last hx)

end Move.Settles

namespace Builder.Regular

variable {b c : Builder}

theorem same (regular : b.Regular) (same : c.network = b.network) : c.Regular := by
  simp only [network, Prod.mk.injEq] at same
  obtain ⟨-, count, nodes, firsts, lasts, ends, -⟩ := same
  exact
    { named := nodes ▸ regular.named
      rising := nodes ▸ regular.rising
      bounded := by rw [nodes, count]; exact regular.bounded
      firsts := by rw [firsts, nodes]; exact regular.firsts
      falling := firsts ▸ regular.falling
      lasts := by rw [lasts, nodes]; exact regular.lasts
      ends := by rw [ends, nodes]; exact regular.ends }

theorem newest (regular : b.Regular) {name s : String} (last : b.nodes.getLast? = some name)
    (member : s ∈ b.nodes) : s = name ∨ nodeNumber s < nodeNumber name := by
  obtain ⟨before, split⟩ := List.getLast?_eq_some_iff.mp last
  have rising := regular.rising
  rw [split] at rising member
  rcases List.mem_append.mp member with old | new
  · exact .inr ((List.pairwise_append.mp rising).2.2 s old name List.mem_cons_self)
  · exact .inl (List.mem_singleton.mp new)

theorem addFirst (regular : b.Regular) {name : String} (last : b.nodes.getLast? = some name) :
    { b with firsts := (Item.name name).addTo b.firsts }.Regular := by
  refine { regular with firsts := fun x hx => ?_, falling := ?_ }
  · rcases Item.mem_addTo hx with rfl | old
    · exact ⟨name, List.mem_of_getLast? last, rfl⟩
    · exact regular.firsts x old
  · dsimp only [Item.addTo]
    split
    · exact regular.falling
    -- A first with the same number would be the same node, and so the topmost of the firsts.
    · rename_i other
      refine List.pairwise_cons.mpr ⟨fun x hx => ?_, regular.falling⟩
      obtain ⟨s, member, rfl⟩ := regular.firsts x hx
      refine (regular.newest last member).resolve_left ?_
      rintro rfl
      refine other ?_
      have falling := regular.falling
      have known := regular.firsts
      generalize b.firsts = firsts at hx falling known
      cases firsts with
      | nil => cases hx
      | cons y below =>
          rcases List.mem_cons.mp hx with rfl | later
          · simp [Item.isTop]
          · obtain ⟨t, node, rfl⟩ := known y List.mem_cons_self
            have less : nodeNumber s < nodeNumber t := (List.pairwise_cons.mp falling).1 _ later
            rcases regular.newest last node with rfl | more
            · exact absurd less (Nat.lt_irrefl _)
            · exact absurd less (Nat.lt_asymm more)

theorem node (regular : b.Regular) {kind name text shape : String} (known : kind ∈ nodeKinds)
    (named : name = kind ++ toString (b.count + 1)) {done : Prop} {lasts ends : List Item}
    {edges : List Statement}
    (settles : Settles done name (declared b name text shape) lasts ends edges) (drawings : Nat)
    (drawn : Option (List Statement)) :
    { b with
      count := b.count + 1
      nodes := b.nodes ++ [name]
      lasts := lasts
      ends := ends
      graph := b.graph ++ Statement.node name text shape :: edges
      drawings := drawings
      drawn := drawn }.Regular := by
  obtain ⟨fromLasts, fromEnds, -⟩ := settles.mem
  have number : nodeNumber name = b.count + 1 := by
    rw [named]
    exact nodeNumber_append (NodeName.lettered known) _
  have own : (Item.name name).Known (b.nodes ++ [name]) := .name (by simp)
  exact
    { named := List.forall_mem_append.mpr
        ⟨regular.named, List.forall_mem_singleton.mpr ⟨kind, known, _, named⟩⟩
      rising := by
        refine List.pairwise_append.mpr
          ⟨regular.rising, List.pairwise_singleton _ _, fun s hs t ht => ?_⟩
        cases List.mem_singleton.mp ht
        rw [number]
        exact Nat.lt_succ_of_le (regular.bounded s hs)
      bounded := List.forall_mem_append.mpr
        ⟨fun s hs => Nat.le_succ_of_le (regular.bounded s hs),
          List.forall_mem_singleton.mpr number.le⟩
      firsts := fun x hx => by
        obtain ⟨s, hs, same⟩ := regular.firsts x hx
        exact ⟨s, List.mem_append_left _ hs, same⟩
      falling := regular.falling
      lasts := fun x hx => by
        rcases fromLasts x hx with rfl | old
        · exact own
        · exact (regular.lasts x old).mono
      ends := fun x hx => by
        rcases fromEnds x hx with rfl | old
        · exact own
        · exact (regular.ends x old).mono }

theorem leaves (regular : b.Regular) {done : Prop} {E : Nat → List Statement → Prop}
    (h : Leaves done E b c) (counts : ∀ {n edges}, E n edges → b.count ≤ n) : c.Regular := by
  obtain ⟨count, firsts, lasts, ends, edges, drawings, drawn, restacks, drew, rfl⟩ := h
  exact
    { regular with
      bounded := fun s hs => (regular.bounded s hs).trans (counts drew)
      firsts := fun x hx => regular.firsts x (restacks.taken.subset hx)
      falling := regular.falling.sublist restacks.taken
      lasts := fun x hx => (restacks.offered x hx).known regular
      ends := fun x hx => (restacks.ready x hx).elim (regular.ends x) fun new => new.known regular }

end Builder.Regular

theorem Change.weaken {T : String → Prop} {done : Prop} {b c : Builder} (h : Change T done b c) :
    Change T False b c := by
  cases h with
  | aside same held => exact .aside same held
  | node known labelled shaped named label settles =>
      exact .node known labelled shaped named label settles.weaken
  | first newest => exact .first newest
  | last newest => exact .last newest
  | top newest => exact .top newest
  | branches left => exact .branches left.weaken

theorem Change.regular {T : String → Prop} {done : Prop} {b c : Builder} (regular : b.Regular)
    (h : Change T done b c) : c.Regular := by
  cases h with
  | aside same _ => exact regular.same same
  | node known _ _ named _ settles => exact regular.node known named settles _ _
  | first newest => exact regular.addFirst newest
  | last newest =>
      refine { regular with lasts := fun x hx => ?_ }
      rcases Item.mem_addTo hx with rfl | old
      · exact .name (List.mem_of_getLast? newest)
      · exact regular.lasts x old
  | top newest =>
      exact { regular with
        ends := List.forall_mem_cons.mpr ⟨.name (List.mem_of_getLast? newest), regular.ends⟩ }
  | branches left => exact regular.leaves left fun drew => drew.1.ge

theorem Change.edition {T : String → Prop} {done : Prop} {b c : Builder} (h : Change T done b c) :
    c.edition = b.edition := by
  cases h with
  | aside same _ => exact congrArg Prod.fst same
  | branches left =>
      obtain ⟨_, _, _, _, _, _, _, -, -, rfl⟩ := left
      rfl
  | _ => rfl

theorem Builder.Turns.count_le {b : Builder} {n : Nat} {edges : List Statement}
    (turns : b.Turns n edges) : b.count ≤ n := by
  cases turns with
  | straight _ _ _ _ => exact Nat.le_refl _
  | through _ _ _ _ _ _ => exact Nat.le_succ _
  | early _ _ _ _ => exact Nat.le_refl _

theorem Progress.regular {T : String → Prop} {done : Prop} {b c : Builder} (regular : b.Regular)
    (h : Progress T done b c) : c.Regular := by
  rcases h with change | turned
  · exact change.regular regular
  · exact regular.leaves turned Builder.Turns.count_le

theorem Progress.graph_prefix {T : String → Prop} {done : Prop} {b c : Builder}
    (h : Progress T done b c) : b.graph <+: c.graph := by
  have left {E : Nat → List Statement → Prop} (h : Leaves done E b c) : b.graph <+: c.graph := by
    obtain ⟨_, _, _, _, edges, _, _, -, -, rfl⟩ := h
    exact List.prefix_append b.graph edges
  rcases h with change | turned
  · cases change with
    | aside same _ =>
        simp only [Builder.network, Prod.mk.injEq] at same
        exact same.2.2.2.2.2.2 ▸ List.prefix_rfl
    | node _ _ _ _ _ _ => exact List.prefix_append b.graph _
    | first _ => exact List.prefix_rfl
    | last _ => exact List.prefix_rfl
    | top _ => exact List.prefix_rfl
    | branches h => exact left h
  · exact left turned

theorem Progress.weaken {T : String → Prop} {done : Prop} {b c : Builder}
    (h : Progress T done b c) : Progress T False b c :=
  h.imp Change.weaken Leaves.weaken

/-- The texts that the hook gives to nodes, if the text of the part that matters to it is `s`. -/
def Hook.contents (s : String) : Hook → List String
  | enterFunction => [s]
  | leaveFunction => [s ++ " end"]
  | enterIf => [s]
  | enterFor => [s, "for " ++ s]
  | _ => []

/-- What the hook gives to nodes has `T`. -/
def Hook.Labels (T : String → Prop) (h : Hook) (ts : List Tree) : Prop :=
  ∀ s, Move.childText ts 1 = .ok s → ∀ text ∈ h.contents s, T text

namespace Move

variable {α : Type} {T : String → Prop} {b : Builder} {Q : α → Builder → Prop}

/-- The builder has become another one by changes that were done. -/
abbrev Reaches (T : String → Prop) : Builder → Builder → Prop := ReflTransGen (Change T True)

theorem Reaches.regular {c : Builder} (regular : b.Regular) (h : Reaches T b c) : c.Regular := by
  induction h with
  | refl => exact regular
  | tail _ change ih => exact change.regular ih

theorem Reaches.edition {c : Builder} (h : Reaches T b c) : c.edition = b.edition := by
  induction h with
  | refl => rfl
  | tail _ change ih => exact change.edition.trans ih

/-- The builder was stopped in the middle of a change. -/
def Halts (T : String → Prop) (b c : Builder) : Prop := ∃ d, Reaches T b d ∧ Change T False d c

/-- The builder makes changes, and the last one may not be done. -/
abbrev Evolves (T : String → Prop) (b : Builder) (m : Move α) : Prop :=
  Ensures (Reaches T b) m (fun _ => Reaches T b) (Halts T b)

/-- The node made last has the name. -/
def Newest (T : String → Prop) (b : Builder) (name : String) (c : Builder) : Prop :=
  c.nodes.getLast? = some name ∧ Reaches T b c

theorem Evolves.aside {m : Move α} (same : ∀ c : Builder, (c.perform m).2.network = c.network)
    (held : ∀ c : Builder, (c.perform m).2.held = c.held ∨ (c.perform m).2.held = "" ∨
      Lined (c.perform m).2.held) : Evolves T b m := by
  intro c hc
  have network := same c
  have text := held c
  refine ⟨fun a d done => ?_, fun e d stopped => ?_⟩
  · rw [done] at network text
    exact hc.tail (.aside network text)
  · rw [stopped] at network text
    exact ⟨c, hc, .aside network text⟩

theorem Texts.evolves {m : Move α} (texts : Texts m) : Evolves T b m :=
  .aside (fun c => (texts c).network) fun c => (texts c).held

theorem Evolves.modify {f : Builder → Builder} (same : ∀ c, (f c).network = c.network)
    (held : ∀ c, (f c).held = c.held) : Evolves T b (modify f : Move Unit) :=
  .aside same fun c => .inl (held c)

theorem Ensures.ofEdition {P S : Builder → Prop} {f : Edition → Move α}
    (h : ∀ ed, Ensures P (f ed) Q S) : Ensures P (Move.edition >>= f) Q S := by
  intro c hc
  rw [Builder.perform_bind_ok (Builder.perform_edition c)]
  exact h c.edition c hc

theorem Evolves.asking {x : Except Mishap α} {β : Type} {f : α → Move β} {R : β → Builder → Prop}
    (next : ∀ a, x = .ok a → Ensures (Reaches T b) (f a) R (Halts T b)) :
    Ensures (Reaches T b) (liftM x >>= f) R (Halts T b) := by
  refine Ensures.given (A := fun a => x = .ok a) ?_ next
  exact Ensures.lift (fun a told c hc => ⟨told, hc⟩) fun c hc => ⟨c, hc, .aside rfl (.inl rfl)⟩

theorem newNode_evolves (regular : b.Regular) {kind content shape : String}
    (known : kind ∈ ["b", "f", "if", "l"]) (labelled : T content)
    (shaped : shape ∈ ["box", "diamond", "egg"]) {f : String → Move α}
    (next : ∀ name, Ensures (Newest T b name) (f name) Q (Halts T b)) :
    Ensures (Reaches T b) (newNode kind content shape >>= f) Q (Halts T b) := by
  refine Ensures.bind (fun c hc => ?_) next
  have regular := hc.regular regular
  obtain ⟨k, told⟩ := perform_nodeKind (b := { c with count := c.count + 1 }) regular.named
    regular.lasts kind
  have member := mem_nodeKinds known (nodeKind_chosen told).1
  rcases newNode_outcome content shape member told rfl rfl with
    ⟨lasts, ends, edges, drawings, drawn, settles, done⟩ | ⟨e, last, below, split, stopped⟩
  · rw [done]
    refine ensured_of_ok ?_
    exact ⟨List.getLast?_concat, hc.tail (.node member labelled shaped rfl rfl settles)⟩
  · rw [stopped]
    refine ensured_of_error ?_
    exact ⟨c, hc, .node member labelled shaped rfl rfl (.stopped id split)⟩

theorem Evolves.newest {m : Move α} (h : Evolves T b m) {name : String} :
    Ensures (Newest T b name) m (fun _ => Reaches T b) (Halts T b) :=
  h.weaken (fun _ hc => hc.2) (fun _ _ hc => hc) fun _ hc => hc

theorem addFirst_evolves {name : String} :
    Ensures (Newest T b name) (addFirst (.name name)) (fun _ => Newest T b name) (Halts T b) :=
  Ensures.modify fun _ hc => ⟨hc.1, hc.2.tail (.first hc.1)⟩

theorem addLast_evolves {name : String} :
    Ensures (Newest T b name) (addLast (.name name)) (fun _ => Reaches T b) (Halts T b) :=
  Ensures.modify fun _ hc => hc.2.tail (.last hc.1)

theorem pushEnd_evolves {name : String} :
    Ensures (Newest T b name) (pushEnd (.name name)) (fun _ => Reaches T b) (Halts T b) :=
  Ensures.modify fun _ hc => hc.2.tail (.top hc.1)

section

variable (regular : b.Regular) (blank : T "")

include regular blank

theorem flush_evolves : Evolves T b flush := by
  have cleared : Evolves T b (modify fun b => { b with held := "" } : Move Unit) :=
    .aside (fun _ => rfl) fun _ => .inr (.inl rfl)
  refine Ensures.look fun c hc => ?_
  refine Ensures.weaken (P := Reaches T b) ?_ (by rintro _ rfl; exact hc) (fun _ _ h => h)
    fun _ h => h
  split
  · exact newNode_evolves regular (by decide) blank (by decide) fun _ => cleared.newest
  · exact cleared

theorem leaveBlock_evolves : Evolves T b leaveBlock :=
  (Evolves.modify (by intro _; rfl) (by intro _; rfl)).bind fun _ => flush_evolves regular blank

theorem enterIf_evolves {ts : List Tree} (labels : Hook.enterIf.Labels T ts) :
    Evolves T b (enterIf ts) := by
  have push (x : Branches) : Evolves T b
      (modify fun b => { b with ifs := x :: b.ifs } : Move Unit) :=
    .modify (fun _ => rfl) fun _ => rfl
  have last : Evolves T b
      (if ts.length = 5 then modify fun b => { b with ifs := .thenElse :: b.ifs }
        else pure ()) := by
    split
    · exact push .thenElse
    · exact (Looks.pure ()).texts.evolves
  have rest : Evolves T b (do
      modify fun b => { b with ifLevels := b.level :: b.ifLevels }
      if ts.length = 3 then modify fun b => { b with ifs := .thenOnly :: b.ifs }
      if ts.length = 5 then modify fun b => { b with ifs := .thenElse :: b.ifs } : Move Unit) := by
    refine (Evolves.modify (by intro _; rfl) (by intro _; rfl)).bind fun _ => ?_
    by_cases three : ts.length = 3
    · rw [if_pos three]
      exact (push .thenOnly).bind fun _ => last
    · rw [if_neg three]
      exact last
  refine (flush_evolves regular blank).bind fun _ => Evolves.asking fun text told => ?_
  refine newNode_evolves regular (by decide) (labels text told text (by simp [Hook.contents]))
    (by decide) fun name => Ensures.ofEdition fun ed => ?_
  cases ed with
  | late => exact addFirst_evolves.bind fun _ => rest.newest
  | early => exact rest.newest

theorem enterFor_evolves {ts : List Tree} (labels : Hook.enterFor.Labels T ts) :
    Evolves T b (enterFor ts) := by
  refine (flush_evolves regular blank).bind fun _ => Evolves.asking fun text told => ?_
  refine Ensures.ofEdition fun ed => ?_
  cases ed with
  | late =>
      refine newNode_evolves regular (by decide) (labels text told _ (by simp [Hook.contents]))
        (by decide) fun name => ?_
      exact (Evolves.modify (by intro _; rfl) (by intro _; rfl)).newest
  | early =>
      refine newNode_evolves regular (by decide) (labels text told text (by simp [Hook.contents]))
        (by decide) fun name => ?_
      exact Ensures.pure fun _ h => h.2

omit blank

theorem enterFunction_evolves {ts : List Tree} (labels : Hook.enterFunction.Labels T ts) :
    Evolves T b (enterFunction ts) :=
  Evolves.asking fun text told => newNode_evolves regular (by decide)
    (labels text told text (by simp [Hook.contents])) (by decide) fun _ => pushEnd_evolves

theorem leaveFunction_evolves {ts : List Tree} (labels : Hook.leaveFunction.Labels T ts) :
    Evolves T b (leaveFunction ts) :=
  Evolves.asking fun text told => newNode_evolves regular (by decide)
    (labels text told _ (by simp [Hook.contents])) (by decide) fun _ => Ensures.pure fun _ h => h.2

omit regular in
theorem enterBlock_evolves : Evolves T b enterBlock := by
  refine (Evolves.modify (by intro _; rfl) (by intro _; rfl)).bind fun _ => ?_
  refine Ensures.bind (Q := Newest T b) (fun c hc => ?_) fun name => ?_
  · rw [Builder.perform_lastNode]
    cases last : c.nodes.getLast? with
    | none =>
        refine ensured_of_error ?_
        exact ⟨c, hc, .aside rfl (.inl rfl)⟩
    | some name =>
        refine ensured_of_ok ?_
        exact ⟨last, hc⟩
  · refine Ensures.bind (Q := fun _ => Newest T b name) ?_ fun isFunction => ?_
    · exact Ensures.lift (fun _ _ c hc => hc) fun c hc => ⟨c, hc.2, .aside rfl (.inl rfl)⟩
    · cases isFunction with
      | true => exact addLast_evolves
      | false => exact addFirst_evolves.bind fun _ => addLast_evolves

theorem leaveIf_evolves (ts : List Tree) : Evolves T b (leaveIf ts) := by
  have popIf : Evolves T b popIf := by
    refine .aside (fun c => ?_) fun c => .inl ?_ <;> rw [Builder.perform_popIf] <;>
      cases c.ifs <;> rfl
  have popIfLevel : Evolves T b popIfLevel := by
    refine .aside (fun c => ?_) fun c => .inl ?_ <;> rw [Builder.perform_popIfLevel] <;>
      cases c.ifLevels <;> rfl
  rw [leaveIf_eq]
  refine Ensures.bind (Q := fun _ => Reaches T b) (fun c hc => ?_) fun _ => popIf.bind fun _ =>
    popIfLevel.bind fun _ => (Looks.pure _).texts.evolves
  obtain ⟨done, stopped⟩ := closeIf_leaves (hc.regular regular) ts c rfl
  exact ⟨fun a d same => hc.tail (.branches (done a d same)),
    fun e d same => ⟨c, hc, .branches (stopped e d same)⟩⟩

/-- Leaving a loop. Before the loop is closed, the builder is stopped as it is on leaving an if
statement. -/
theorem leaveFor_evolves :
    Ensures (fun c => c = b) leaveFor (fun _ c => ∃ d, Reaches T b d ∧ Leaves True d.Turns d c)
      (fun c => Halts T b c ∨ ∃ d, Reaches T b d ∧ Leaves False d.Turns d c) := by
  have popLevel (ed : Edition) : Evolves T b (popLoopLevel ed) := by
    cases ed with
    | early => exact (Looks.pure _).texts.evolves
    | late =>
        refine .aside (fun c => ?_) fun c => .inl ?_ <;> unfold popLoopLevel <;>
          rw [Builder.perform_bind, Builder.perform_popForLevel] <;> cases c.forLevels <;> rfl
  rw [leaveFor_eq]
  rintro b rfl
  rw [Builder.perform_bind_ok (Builder.perform_edition b)]
  refine Ensures.bind (Q := fun _ => Reaches T b) ((popLevel b.edition).weaken ?_ (fun _ _ h => h)
    fun _ h => .inl h) (fun _ d hd => ?_) b rfl
  · rintro _ rfl
    exact .refl
  · obtain ⟨done, stopped⟩ := leaveLoop_leaves (hd.regular regular) d rfl
    rw [hd.edition] at done stopped
    refine ⟨fun a c same => ⟨d, hd, done a c same⟩, fun e c same => ?_⟩
    exact (stopped e c same).imp (fun left => ⟨d, hd, .branches left⟩) fun left => ⟨d, hd, left⟩

end

/-- Hooks other than that of leaving a loop consist of changes. -/
theorem run_evolves (regular : b.Regular) (blank : T "") {h : Hook} (other : h ≠ .leaveFor)
    {ts : List Tree} (labels : h.Labels T ts) : Evolves T b (h.run ts) := by
  cases h with
  | enterFunction => exact enterFunction_evolves regular labels
  | leaveFunction => exact leaveFunction_evolves regular labels
  | enterBlock => exact enterBlock_evolves
  | leaveBlock => exact leaveBlock_evolves regular blank
  | enterConst => exact (setPhase_texts .constDecl).evolves
  | leaveConst => exact (leaveDeclaration_texts "const").evolves
  | enterVar => exact (setPhase_texts .varDecl).evolves
  | leaveVar => exact (leaveDeclaration_texts "var").evolves
  | enterAssignment => exact (enterAssignment_texts ts).evolves
  | leaveNames => exact (leaveNames_texts ts).evolves
  | leaveType => exact (leaveType_texts ts).evolves
  | leaveValues => exact (leaveValues_texts ts).evolves
  | enterIf => exact enterIf_evolves regular blank labels
  | leaveIf => exact leaveIf_evolves regular ts
  | enterFor => exact enterFor_evolves regular blank labels
  | leaveFor => exact absurd rfl other

end Move

open Move

/-- What the hooks of the events give to nodes has `T`. -/
def Labelled (T : String → Prop) (es : List Event) : Prop :=
  ∀ e ∈ es, ∀ h ts, Hook.ofEvent? e = some (h, ts) → h.Labels T ts

theorem Labelled.any (es : List Event) : Labelled (fun _ => True) es :=
  fun _ _ _ _ _ _ _ _ _ => trivial

section

variable {T : String → Prop} {b : Builder} (blank : T "")

include blank

theorem Hook.run_progresses (regular : b.Regular) {h : Hook} {ts : List Tree}
    (labels : h.Labels T ts) :
    Ensures (fun c => c = b) (h.run ts) (fun _ => ReflTransGen (Progress T True) b)
      (ReflTransGen (Progress T False) b) := by
  have done {c : Builder} (reaches : Reaches T b c) : ReflTransGen (Progress T True) b c :=
    ReflTransGen.mono (fun _ _ change => .inl change) _ _ reaches
  have stopped {c : Builder} (reaches : Reaches T b c) : ReflTransGen (Progress T False) b c :=
    ReflTransGen.mono (fun _ _ change => .inl change.weaken) _ _ reaches
  have start (c : Builder) (same : c = b) : Reaches T b c := same ▸ .refl
  have halted (c : Builder) (halts : Halts T b c) : ReflTransGen (Progress T False) b c := by
    obtain ⟨d, reaches, change⟩ := halts
    exact (stopped reaches).tail (.inl change)
  by_cases leaving : h = .leaveFor
  · subst leaving
    refine (leaveFor_evolves (T := T) regular).weaken (fun _ same => same) ?_ ?_
    · rintro _ c ⟨d, reaches, turned⟩
      exact (done reaches).tail (.inr turned)
    · rintro c (halts | ⟨d, reaches, turned⟩)
      · exact halted c halts
      · exact (stopped reaches).tail (.inr turned)
  · exact (run_evolves regular blank leaving labels).weaken start (fun _ _ => done) halted

theorem heed_progresses {es : List Event} (regular : b.Regular) (labelled : Labelled T es) :
    Ensures (fun c => c = b) (heed es) (fun _ => ReflTransGen (Progress T True) b)
      (ReflTransGen (Progress T False) b) := by
  induction es generalizing b with
  | nil =>
      apply Ensures.pure
      rintro _ rfl
      exact .refl
  | cons e es ih =>
      have rest {c : Builder} (regular : c.Regular) :=
        ih regular fun d hd => labelled d (List.mem_cons_of_mem e hd)
      rw [heed]
      cases hook : Hook.ofEvent? e with
      | none => exact rest regular
      | some p =>
          obtain ⟨h, ts⟩ := p
          have labels := labelled e List.mem_cons_self h ts hook
          refine Ensures.bind (Hook.run_progresses blank regular labels) fun _ c hc => ?_
          have regular' : c.Regular := by
            clear hook
            induction hc with
            | refl => exact regular
            | tail _ step ih' => exact step.regular ih'
          obtain ⟨done, stopped⟩ := rest regular' c rfl
          refine ⟨fun a d same => hc.trans (done a d same), fun m d same => ?_⟩
          exact (ReflTransGen.mono (fun _ _ step => step.weaken) _ _ hc).trans (stopped m d same)

variable {P : Builder → Prop} {es : List Event} (labelled : Labelled T es) (regular : b.Regular)

include labelled regular

/-- What each change keeps holds at every moment of a walk, also when the builder is stopped. -/
theorem heed_keeps (step : ∀ {b c}, b.Regular → P b → Progress T False b c → P c) (hb : P b) :
    (b.perform (heed es)).2.Regular ∧ P (b.perform (heed es)).2 := by
  have along {c : Builder} (steps : ReflTransGen (Progress T False) b c) : c.Regular ∧ P c := by
    induction steps with
    | refl => exact ⟨regular, hb⟩
    | tail _ next ih => exact ⟨next.regular ih.1, step ih.1 ih.2 next⟩
  refine Ensures.outcome (P := fun c => c = b) (R := fun c => c.Regular ∧ P c) ?_ rfl
  refine (heed_progresses blank regular labelled).weaken (fun _ same => same) ?_ fun c => along
  exact fun _ c steps => along (ReflTransGen.mono (fun _ _ next => next.weaken) _ _ steps)

/-- What each change keeps that is done holds after a walk that is completed. -/
theorem heed_sustains (step : ∀ {b c}, b.Regular → P b → Progress T True b c → P c) (hb : P b)
    {c : Builder} {u : Unit} (done : b.perform (heed es) = (.ok u, c)) : c.Regular ∧ P c := by
  have steps := (heed_progresses blank regular labelled b rfl).1 u c done
  clear done
  induction steps with
  | refl => exact ⟨regular, hb⟩
  | tail _ next ih => exact ⟨next.regular ih.1, step ih.1 ih.2 next⟩

end

end GoFlow
