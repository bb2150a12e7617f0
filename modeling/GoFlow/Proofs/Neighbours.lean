import GoFlow.Proofs.Depths
import GoFlow.Proofs.Reach
import GoFlow.Proofs.Sides
import GoFlow.Proofs.Since

/-! Functions one after another. The stacks of a builder are not cleared between them: as soon as a
block has been walked through, the entry of a function is connected with the end of the function
before it. -/

namespace GoFlow

open Dot (Statement endNode)
open Move Builder

theorem Move.enterBlock_fills {b c : Builder} {u : Unit}
    (done : b.perform enterBlock = (.ok u, c)) : c.lasts ≠ [] := by
  obtain ⟨_, d, -, done⟩ := of_perform_bind done
  obtain ⟨name, e, -, done⟩ := of_perform_bind done
  obtain ⟨isFunction, f, -, done⟩ := of_perform_bind done
  cases isFunction with
  | true =>
      cases done
      exact Item.addTo_ne_nil _ _
  | false =>
      cases done
      exact Item.addTo_ne_nil _ _

theorem Progress.filled {T : String → Prop} {b c : Builder} (filled : b.lasts ≠ [])
    (h : Progress T True b c) : c.lasts ≠ [] := by
  have left {E : Nat → List Statement → Prop} (h : Leaves True E b c) : c.lasts ≠ [] := by
    obtain ⟨_, _, _, _, _, _, _, restacks, -, rfl⟩ := h
    exact (restacks.tops trivial).1
  rcases h with change | turned
  · cases change with
    | aside same _ =>
        simp only [network, Prod.mk.injEq] at same
        rw [same.2.2.2.2.1]
        exact filled
    | node _ _ _ _ _ settles =>
        cases settles with
        | first none => exact absurd none filled
        | apart _ _ => exact Item.addTo_ne_nil _ _
        | joined _ _ _ => exact Item.addTo_ne_nil _ _
        | stopped undone _ => exact absurd trivial undone
    | first _ => exact filled
    | last _ => exact Item.addTo_ne_nil _ _
    | top _ => exact filled
    | branches h => exact left h
  · exact left turned

namespace Category

/-- The categories that stand within blocks only. -/
def inner : List Category :=
  [.statementList, .statement, .labeledStmt, .ifStmt, .switchStmt, .exprSwitchStmt, .exprCaseClause,
    .typeSwitchStmt, .typeCaseClause, .selectStmt, .commClause, .forStmt]

theorem parts_outer (c : Category) (outer : c ∉ inner) (other : c ≠ .block) :
    ∀ k ∈ c.parts, k ∉ inner := by
  revert outer other
  cases c <;> decide

theorem parts_below (c : Category) (below : c ≠ .sourceFile) :
    ∀ k ∈ c.parts, k ∉ [sourceFile, functionDecl] := by
  revert below
  cases c <;> decide

end Category

/-- The hooks of other categories change texts and declarations only. -/
def wiringCategories : List Category := [.functionDecl, .block, .ifStmt, .forStmt]

theorem heed_texts {es : List Event}
    (other : ∀ e ∈ es, ∀ c, e.category? = some c → c ∉ wiringCategories) : Texts (heed es) := by
  induction es with
  | nil => exact (Looks.pure _).texts
  | cons e es ih =>
      have rest := ih fun d hd => other d (List.mem_cons_of_mem e hd)
      have here := other e List.mem_cons_self
      rw [heed]
      cases hook : Hook.ofEvent? e with
      | none => exact rest
      | some p =>
          obtain ⟨k, ts⟩ := p
          refine Texts.bind ?_ fun _ => rest
          cases e with
          | leaf l => cases hook
          | enter h us =>
              obtain ⟨k, hk, same⟩ := Option.map_eq_some_iff.mp hook
              cases same
              have outside := here _ rfl
              cases hc : h.category <;> simp [hc, Hook.onEnter?, wiringCategories]
                at hk outside <;> subst hk
              · exact setPhase_texts .constDecl
              · exact setPhase_texts .varDecl
              · exact enterAssignment_texts ts
          | leave h us =>
              obtain ⟨k, hk, same⟩ := Option.map_eq_some_iff.mp hook
              cases same
              have outside := here _ rfl
              cases hc : h.category <;> simp [hc, Hook.onLeave?, wiringCategories]
                at hk outside <;> subst hk
              · exact leaveDeclaration_texts "const"
              · exact leaveNames_texts ts
              · exact leaveValues_texts ts
              · exact leaveDeclaration_texts "var"
              · exact leaveType_texts ts

section

variable {h : Head} {ts us : List Tree} (source : h.category = .sourceFile)
  (lawful : (Tree.node h ts).Lawful)

include source lawful

/-- Where no block is entered, no statements stand in the parts of a source. -/
theorem blockless_events (sub : us ⊆ ts) (none : ¬ Enters .block (Tree.walkAll us)) {e : Event}
    (he : e ∈ Tree.walkAll us) (c : Category) (hc : e.category? = some c) :
    c ∉ [.block, .ifStmt, .forStmt] := by
  obtain ⟨u, hu, he⟩ := Tree.mem_walkAll.mp he
  have whole : u.walk ⊆ Tree.walkAll us := fun e he => Tree.mem_walkAll.mpr ⟨u, hu, he⟩
  have outer : c ∉ Category.inner := by
    refine Tree.Lawful.spread (P := (· ∉ Category.inner)) (lawful.child (sub hu))
      (fun k vs entered outer => ?_) (fun k hk => ?_) he c hc
    · exact Category.parts_outer _ outer fun block => none ⟨k, vs, whole entered, block⟩
    · have part := lawful.part (sub hu) k hk
      rw [source] at part
      exact Category.parts_outer .sourceFile (by decide) (by decide) k part
  simp only [List.mem_cons, List.not_mem_nil, or_false]
  rintro (rfl | rfl | rfl)
  · exact none ((u.enters_category he hc).mono whole)
  · exact outer (by decide)
  · exact outer (by decide)

theorem functionless_events (sub : us ⊆ ts) (others : ∀ u ∈ us, u.category? ≠ some .functionDecl)
    {e : Event} (he : e ∈ Tree.walkAll us) (c : Category) (hc : e.category? = some c) :
    c ≠ .functionDecl := by
  obtain ⟨u, hu, he⟩ := Tree.mem_walkAll.mp he
  have below : c ∉ [.sourceFile, .functionDecl] := by
    refine Tree.Lawful.spread (P := (· ∉ [.sourceFile, .functionDecl])) (lawful.child (sub hu))
      (fun k vs _ below => ?_) (fun k hk => ?_) he c hc
    · exact Category.parts_below _ fun source => below (by rw [source]; exact List.mem_cons_self)
    · have part := lawful.part (sub hu) k hk
      rw [source] at part
      simp only [List.mem_cons, List.not_mem_nil, or_false]
      rintro (rfl | rfl)
      · exact absurd part (by decide)
      · exact others u hu hk
  rintro rfl
  exact below (by decide)

/-- Nothing is connected between functions where no block stands between them. -/
theorem between_texts (sub : us ⊆ ts) (others : ∀ u ∈ us, u.category? ≠ some .functionDecl)
    (none : ¬ Enters .block (Tree.walkAll us)) : Texts (heed (Tree.walkAll us)) := by
  refine heed_texts fun e he c hc => ?_
  have blockless := blockless_events source lawful sub none he c hc
  have functionless := functionless_events source lawful sub others he c hc
  simp_all [wiringCategories]

end

theorem Passes.filled {es : List Event} {b c : Builder} (passes : Passes es b c)
    (regular : b.Regular) (entered : Enters .block es) : c.lasts ≠ [] := by
  induction es generalizing b with
  | nil => obtain ⟨_, _, ⟨⟩, _⟩ := entered
  | cons e es ih =>
      obtain ⟨d, first, rest⟩ := passes_append.mp (show Passes ([e] ++ es) b c from passes)
      have regular' : d.Regular :=
        (heed_sustains (P := fun _ => True) (T := fun _ => True) trivial (.any [e]) regular
          (fun _ _ _ => trivial) trivial first).1
      obtain ⟨h, us, member, category⟩ := entered
      rcases List.mem_cons.mp member with rfl | later
      · have entering : Hook.onEnter? h.category = some .enterBlock := by rw [category]; rfl
        rw [Passes, heed_enter entering, heed, bind_pure_unit] at first
        exact (heed_sustains (P := fun b => b.lasts ≠ []) (T := fun _ => True) trivial (.any es)
          regular' (fun _ filled => Progress.filled filled) (enterBlock_fills first) rest).2
      · exact ih rest regular' ⟨h, us, later, category⟩

/-- Nothing has been connected yet, and nothing is ready to be. -/
structure Builder.Unjoined (b : Builder) : Prop where
  late : b.edition = .late
  firsts : b.firsts = []
  lasts : b.lasts = []
  edges : ∀ e ∈ b.graph, e.joins = []

namespace Builder.Unjoined

variable {b c : Builder}

theorem same (hb : b.Unjoined) (same : c.network = b.network) : c.Unjoined := by
  simp only [network, Prod.mk.injEq] at same
  obtain ⟨edition, _, _, firsts, lasts, _, graph⟩ := same
  exact ⟨edition ▸ hb.late, firsts ▸ hb.firsts, lasts ▸ hb.lasts, graph ▸ hb.edges⟩

theorem node (hb : b.Unjoined) {kind content shape name : String}
    (known : kind ∈ ["b", "f", "if", "l"])
    (made : b.perform (newNode kind content shape) = (.ok name, c)) : c.Unjoined := by
  obtain ⟨_, _, _, _, _, _, _, _, _, settles, rfl⟩ := newNode_settles known made
  cases settles with
  | first _ =>
      refine ⟨hb.late, hb.firsts, rfl, fun e he => ?_⟩
      rcases List.mem_append.mp he with old | new
      · exact hb.edges e old
      · cases List.mem_singleton.mp new
        rfl
  | apart some _ => exact absurd (some.symm.trans hb.lasts) (by simp)
  | joined some _ _ => exact absurd (some.symm.trans hb.lasts) (by simp)
  | stopped undone _ => exact absurd trivial undone

theorem enterFunction (hb : b.Unjoined) {ts : List Tree} {u : Unit}
    (done : b.perform (enterFunction ts) = (.ok u, c)) : c.Unjoined := by
  obtain ⟨text, d, asked, rest⟩ := of_perform_bind done
  cases (Looks.lift _).unchanged asked
  obtain ⟨name, e, made, pushed⟩ := of_perform_bind rest
  have he := hb.node (by decide) made
  cases pushed
  exact ⟨he.late, he.firsts, he.lasts, he.edges⟩

theorem leaveFunction (hb : b.Unjoined) {ts : List Tree} {u : Unit}
    (done : b.perform (leaveFunction ts) = (.ok u, c)) : c.Unjoined := by
  obtain ⟨text, d, asked, rest⟩ := of_perform_bind done
  cases (Looks.lift _).unchanged asked
  obtain ⟨name, e, made, returned⟩ := of_perform_bind rest
  cases returned
  exact hb.node (by decide) made

theorem passes {es : List Event}
    (other : ∀ e ∈ es, ∀ c, e.category? = some c → c ∉ [.block, .ifStmt, .forStmt])
    (hb : b.Unjoined) (passes : Passes es b c) : c.Unjoined := by
  induction es generalizing b with
  | nil =>
      cases passes
      exact hb
  | cons e es ih =>
      obtain ⟨d, first, rest⟩ := passes_append.mp (show Passes ([e] ++ es) b c from passes)
      refine ih (fun d hd => other d (List.mem_cons_of_mem e hd)) ?_ rest
      by_cases function : e.category? = some .functionDecl
      · cases e with
        | leaf l => cases function
        | enter h us =>
            have entering : Hook.onEnter? h.category = some .enterFunction := by
              rw [Option.some.inj function]; rfl
            rw [Passes, heed_enter entering, heed, bind_pure_unit] at first
            exact hb.enterFunction first
        | leave h us =>
            have leaving : Hook.onLeave? h.category = some .leaveFunction := by
              rw [Option.some.inj function]; rfl
            rw [Passes, heed_leave leaving, heed, bind_pure_unit] at first
            exact hb.leaveFunction first
      · have texts : Texts (heed [e]) := by
          refine heed_texts fun d hd c hc => ?_
          cases List.mem_singleton.mp hd
          have blockless := other e List.mem_cons_self c hc
          have functionless : c ≠ .functionDecl := fun same => function (same ▸ hc)
          simp_all [wiringCategories]
        exact hb.same (texts.same first network fun _ => rfl)

end Builder.Unjoined

theorem Item.addTo_unknown {nodes : List String} {name : String} {stack : List Item}
    (known : ∀ x ∈ stack, x.Known nodes) (whole : ':' ∉ name.toList) (new : name ∉ nodes) :
    (Item.name name).addTo stack = .name name :: stack := by
  have absent {x : Item} (hx : x ∈ stack) : name ∉ x.names := by
    intro member
    obtain ⟨n, node, rfl | ⟨p, _, rfl⟩⟩ := (known x hx).2 name member
    · exact new node
    · exact whole (by simp)
  refine if_neg ?_
  cases stack with
  | nil => simp [isTop]
  | cons last below =>
      have absent := absent (x := last) List.mem_cons_self
      rw [isTop, Bool.or_eq_true]
      rintro (member | same)
      · cases last with
        | name s => cases member
        | group xs =>
            have part := names_subset_of_mem (List.contains_iff_mem.mp member)
            exact absent (part (by simp [names]))
      · rw [beq_iff_eq] at same
        exact absent (by simp [same, names])

namespace Move

/-- At the top of a source only a then branch begins apart. -/
theorem beginsApart_top {b : Builder} (late : b.edition = .late) (ifs : b.ifLevels = [])
    (fors : b.forLevels = []) {last : Item} {v : Bool} (letter : last.startsWith "i" = .ok v) :
    (b.perform (beginsApart last)).1 = .ok v := by
  unfold beginsApart
  rw [perform_bind_ok (perform_get b), late]
  simp only [letter, fors]
  rw [perform_bind_ok (perform_lift b _)]
  have level : b.perform atIfLevel = (.ok false, b) := by
    rw [atIfLevel, perform_bind_ok (perform_get b), ifs]
    rfl
  rw [perform_bind_ok level]
  simp

/-- The end of a function is put on top of the stacks, as soon as there is an entry on the lasts. -/
theorem leaveFunction_tops {b c : Builder} {ts : List Tree} {u : Unit} (regular : b.Regular)
    (filled : b.lasts ≠ []) (done : b.perform (leaveFunction ts) = (.ok u, c)) :
    ∃ name, c.nodes.getLast? = some name ∧ nodeNumber name = b.count + 1 ∧
      (name.toList.head? ≠ some 'i' ∧ name ≠ "" ∧ ':' ∉ name.toList) ∧
      c.lasts.head? = some (.name name) ∧ c.ends.head? = some (.name name) := by
  obtain ⟨text, d, asked, rest⟩ := of_perform_bind done
  cases (Looks.lift _).unchanged asked
  obtain ⟨name, e, made, returned⟩ := of_perform_bind rest
  cases returned
  obtain ⟨k, text, _, _, _, _, _, chosen, named, settles, rfl⟩ := newNode_settles (by decide) made
  have kind := mem_nodeKinds (by decide) chosen
  have own : NodeName name := ⟨k, kind, _, named⟩
  have letter : name.toList.head? ≠ some 'i' := by
    rw [if_pos rfl] at chosen
    simp only [List.mem_cons, List.not_mem_nil, or_false] at chosen
    rcases chosen with rfl | rfl | rfl <;> simp [named, String.toList_append]
  have number : nodeNumber name = b.count + 1 :=
    named ▸ nodeNumber_append (NodeName.lettered kind) _
  have new : name ∉ b.nodes := by
    intro old
    have := regular.bounded name old
    omega
  refine ⟨name, List.getLast?_concat, number, ⟨letter, own.ne_empty, own.whole⟩, ?_⟩
  have known := regular.lasts
  cases settles with
  | first none => exact absurd none filled
  | @apart last below split _ =>
      rw [show b.lasts = last :: below from split] at known
      have kept : ∀ x ∈ last.addTo below, x.Known b.nodes := fun x hx =>
        known x (List.mem_cons.mpr (Item.mem_addTo hx))
      exact ⟨by rw [Item.addTo_unknown kept own.whole new]; rfl, rfl⟩
  | @joined last tail below under split _ _ =>
      rw [show b.lasts = last :: below from split] at known
      have kept : ∀ x ∈ below, x.Known b.nodes := fun x hx => known x (List.mem_cons_of_mem _ hx)
      exact ⟨by rw [Item.addTo_unknown kept own.whole new]; rfl, head?_noted own.real under⟩
  | stopped undone _ => exact absurd trivial undone

theorem enterFunction_connects {b c : Builder} {ts : List Tree} {u : Unit} {last : String}
    (late : b.edition = .late) (ifs : b.ifLevels = []) (fors : b.forLevels = [])
    (letter : last.toList.head? ≠ some 'i') (named : last ≠ "") (whole : ':' ∉ last.toList)
    (lasts : b.lasts.head? = some (.name last)) (ends : b.ends.head? = some (.name last))
    (done : b.perform (enterFunction ts) = (.ok u, c)) :
    ∃ own, c.nodes.getLast? = some own ∧ nodeNumber own = b.count + 1 ∧
      .edge (last ++ ":" ++ "s") (own ++ ":" ++ "n") [] ∈ c.graph := by
  obtain ⟨text, d, asked, rest⟩ := of_perform_bind done
  cases (Looks.lift _).unchanged asked
  obtain ⟨own, e, made, pushed⟩ := of_perform_bind rest
  obtain ⟨k, text, _, _, _, _, _, chosen, own_eq, settles, rfl⟩ := newNode_settles (by decide) made
  cases pushed
  rw [if_neg (by decide)] at chosen
  subst chosen
  have colon : ':' ∉ own.toList := own_eq ▸ colon_not_mem_append (by decide) _
  refine ⟨own, List.getLast?_concat, own_eq ▸ nodeNumber_append (by decide) _, ?_⟩
  cases settles with
  | first none =>
      rw [show b.lasts = [] from none] at lasts
      cases lasts
  | @apart x below split apart =>
      rw [show b.lasts = x :: below from split] at lasts
      cases lasts
      rw [beginsApart_top (by exact late) (by exact ifs) (by exact fors)
        (startsWith_name named 'i'), decide_eq_false letter] at apart
      cases apart
  | @joined x tail below under split split' _ =>
      rw [show b.ends = tail :: under from split'] at ends
      cases ends
      refine List.mem_append_right _ (List.mem_cons_of_mem _ ?_)
      simp [edgesFrom, Item.names, link, ported, whole, colon]
  | stopped undone _ => exact absurd trivial undone

end Move

/-- The nodes of the graph: those that are declared, and the ends of edges. -/
def Builder.named (b : Builder) : List String :=
  b.graph.flatMap fun s => s.declares.toList ++ s.joins

theorem Builder.Accounted.named_le {ed : Edition} {b : Builder} (accounted : b.Accounted ed)
    {name : String} (member : name ∈ b.named) : nodeNumber name ≤ b.count := by
  obtain ⟨s, hs, here⟩ := List.mem_flatMap.mp member
  by_cases node : name ∈ b.nodes
  · exact accounted.bounded name node
  · rcases List.mem_append.mp here with declares | joined
    · refine absurd ?_ node
      rw [← accounted.declared]
      exact List.mem_filterMap.mpr ⟨s, hs, Option.mem_toList.mp declares⟩
    · obtain ⟨k, rfl, le, _⟩ := accounted.numbered name (mem_dummies.mpr ⟨⟨s, hs, joined⟩, node⟩)
      rwa [nodeNumber_append (by decide)]

theorem Builder.Accounted.node_named {ed : Edition} {b : Builder} (accounted : b.Accounted ed)
    {name : String} (member : name ∈ b.nodes) : name ∈ b.named := by
  rw [← accounted.declared] at member
  obtain ⟨s, hs, declares⟩ := List.mem_filterMap.mp member
  exact List.mem_flatMap.mpr ⟨s, hs, List.mem_append_left _ (Option.mem_toList.mpr declares)⟩

theorem named_mono {es fs : List Event} (initial : es <+: fs) :
    (built es).named ⊆ (built fs).named := by
  intro name member
  obtain ⟨s, hs, here⟩ := List.mem_flatMap.mp member
  exact List.mem_flatMap.mpr ⟨s, (built_grows initial).subset hs, here⟩

/-- The node comes into the graph while the tree is walked after the events. -/
def MadeIn (before : List Event) (t : Tree) (name : String) : Prop :=
  name ∈ (built (before ++ t.walk)).named ∧ name ∉ (built before).named

/-- An edge joins a node of one kind to a node of the other, in whichever direction. -/
def Joined (g : List Statement) (P Q : String → Prop) : Prop :=
  ∃ s t, (∃ e ∈ g, e.joins = [s, t] ∨ e.joins = [t, s]) ∧ P s ∧ Q t

/-- The events of a source until some of its parts have been walked through. -/
def openedWith (h : Head) (ts parts : List Tree) : List Event := .enter h ts :: Tree.walkAll parts

section

variable {h : Head} {ts before between after : List Tree} {f g : Tree}

theorem openedWith_append (h : Head) (ts us : List Tree) (t : Tree) (vs : List Tree) :
    openedWith h ts (us ++ t :: vs) = openedWith h ts us ++ t.walk ++ Tree.walkAll vs := by
  rw [openedWith, openedWith, walkAll_append, Tree.walkAll, List.cons_append, List.cons_append,
    List.append_assoc]

theorem walk_source (split : ts = before ++ g :: after) :
    (Tree.node h ts).walk = openedWith h ts before ++
      (g.walk ++ (Tree.walkAll after ++ [.leave h ts])) := by
  have opened := openedWith_append h ts before g after
  rw [← split] at opened
  change openedWith h ts ts ++ [_] = _
  rw [opened, List.append_assoc, List.append_assoc]

theorem passes_source (split : ts = before ++ g :: after)
    (completed : ((Builder.new .late).follow (.node h ts)).mishap = none) :
    Passes (openedWith h ts before ++ (g.walk ++ (Tree.walkAll after ++ [.leave h ts])))
      (Builder.new .late)
      ((Builder.new .late).follow (.node h ts)).builder := by
  rw [← walk_source split]
  exact passes_built completed

theorem passes_opened (source : h.category = .sourceFile) {us : List Tree} {b : Builder}
    (passes : Passes (openedWith h ts us) (Builder.new .late) b) :
    Passes (Tree.walkAll us) (Builder.new .late) b := by
  have entering : Hook.onEnter? h.category = none := by rw [source]; rfl
  exact (passes_enter entering).mp passes

theorem unjoined_of_blockless (source : h.category = .sourceFile)
    (lawful : (Tree.node h ts).Lawful)
    (completed : ((Builder.new .late).follow (.node h ts)).mishap = none)
    (split : ts = before ++ f :: between ++ g :: after)
    (category : g.category? = some .functionDecl)
    (none : ¬ Enters .block (Tree.walkAll (before ++ f :: between))) :
    ¬ Joined ((Builder.new .late).follow (.node h ts)).builder.graph
      (MadeIn (openedWith h ts before) f)
      (MadeIn (openedWith h ts (before ++ f :: between)) g) := by
  obtain ⟨b, first, rest⟩ := passes_append.mp (passes_source split completed)
  have accounted : b.Accounted .late := first.accounted (Accounted.new .late)
  have unjoined : b.Unjoined := by
    refine Unjoined.passes (fun e he => ?_) ⟨rfl, rfl, rfl, by rintro e ⟨⟩⟩
      (passes_opened source first)
    exact blockless_events source lawful (split ▸ List.subset_append_left _ _) none he
  have since : b.Since b.count :=
    ⟨le_rfl, by rw [unjoined.firsts]; rintro x ⟨⟩, by rw [unjoined.lasts]; rintro x ⟨⟩,
      fun e he s hs => by rw [unjoined.edges e he] at hs; cases hs⟩
  have afresh : ((Builder.new .late).follow (.node h ts)).builder.Afresh b.count := by
    cases g with
    | leaf l => cases category
    | node k vs =>
        obtain ⟨d, entered, rest⟩ :=
          passes_append.mp (show Passes ([.enter k vs] ++ _) b _ from rest)
        have entering : Hook.onEnter? k.category = some .enterFunction := by
          rw [Option.some.inj category]; rfl
        have regular := (entered.accounted accounted).toRegular
        rw [Passes, heed_enter entering, heed, bind_pure_unit] at entered
        exact (heed_sustains (P := Afresh b.count) (T := fun _ => True) trivial (.any _) regular
          (fun regular afresh => afresh.progress regular)
          (enterFunction_begins since unjoined.lasts entered) rest).2
  rintro ⟨s, t, ⟨e, he, joins⟩, ⟨made, _⟩, _⟩
  have new : b.count < nodeNumber s :=
    afresh.edges e he s (by rcases joins with joins | joins <;> simp [joins])
  have initial : openedWith h ts before ++ f.walk <+: openedWith h ts (before ++ f :: between) := by
    rw [openedWith_append]
    exact List.prefix_append _ _
  have old : s ∈ b.named := first.built ▸ named_mono initial made
  exact absurd (accounted.named_le old) (Nat.not_le.mpr new)

theorem left_function {es : List Event} {k : Head} {us : List Tree} {b : Builder}
    (category : k.category = .functionDecl)
    (entered : Enters .block (es ++ (Tree.node k us).walk))
    (passes : Passes (es ++ (Tree.node k us).walk) (Builder.new .late) b) :
    ∃ last, b.nodes.getLast? = some last ∧ MadeIn es (.node k us) last ∧
      (last.toList.head? ≠ some 'i' ∧ last ≠ "" ∧ ':' ∉ last.toList) ∧
      b.lasts.head? = some (.name last) ∧ b.ends.head? = some (.name last) := by
  have same : es ++ (Tree.node k us).walk =
      (es ++ .enter k us :: Tree.walkAll us) ++ [.leave k us] := by
    rw [Tree.walk, List.append_assoc, List.cons_append]
  have whole := passes
  rw [same] at passes entered
  obtain ⟨m, inside, left⟩ := passes_append.mp passes
  have accounted := inside.accounted (Accounted.new .late)
  have filled : m.lasts ≠ [] := by
    obtain ⟨h, vs, member, block⟩ := entered
    rcases List.mem_append.mp member with early | late
    · exact inside.filled (.new .late) ⟨h, vs, early, block⟩
    · cases List.mem_singleton.mp late
  have leaving : Hook.onLeave? k.category = some .leaveFunction := by rw [category]; rfl
  rw [Passes, heed_leave leaving, heed, bind_pure_unit] at left
  obtain ⟨last, newest, number, shape, tops⟩ := leaveFunction_tops accounted.toRegular filled left
  refine ⟨last, newest, ⟨?_, fun old => ?_⟩, shape, tops⟩
  · rw [whole.built]
    exact (whole.accounted (Accounted.new .late)).node_named (List.mem_of_getLast? newest)
  · have early := accounted.named_le (inside.built ▸ named_mono (List.prefix_append _ _) old)
    omega

/-- An edge leads from the last node of a function to the entry of the next one, where a block has
been entered and none stands between the two. -/
theorem ends_into_next {k l : Head} {us vs : List Tree} (source : h.category = .sourceFile)
    (lawful : (Tree.node h ts).Lawful)
    (completed : ((Builder.new .late).follow (.node h ts)).mishap = none)
    (split : ts = before ++ .node k us :: between ++ .node l vs :: after)
    (first : k.category = .functionDecl) (second : l.category = .functionDecl)
    (others : ∀ u ∈ between, u.category? ≠ some .functionDecl)
    (none : ¬ Enters .block (Tree.walkAll between))
    (entered : Enters .block (openedWith h ts before ++ (Tree.node k us).walk)) :
    ∃ last own, (built (openedWith h ts before ++ (Tree.node k us).walk)).nodes.getLast? =
      some last ∧
      madeOnEntering (openedWith h ts (before ++ .node k us :: between)) l vs = some own ∧
      MadeIn (openedWith h ts before) (.node k us) last ∧
      MadeIn (openedWith h ts (before ++ .node k us :: between)) (.node l vs) own ∧
      (Statement.edge (last ++ ":" ++ "s") (own ++ ":" ++ "n") []).joins = [last, own] ∧
      .edge (last ++ ":" ++ "s") (own ++ ":" ++ "n") [] ∈
      ((Builder.new .late).follow (.node h ts)).builder.graph := by
  obtain ⟨b, walked, rest⟩ := passes_append.mp (passes_source split completed)
  have accounted := walked.accounted (Accounted.new .late)
  obtain ⟨late, depths⟩ := Tree.walkAll_depths _ rfl (passes_opened source walked)
  have whole := walked
  rw [openedWith_append] at walked
  obtain ⟨c, through, past⟩ := passes_append.mp walked
  obtain ⟨last, newest, made, ⟨letter, named, colon⟩, lasts, ends⟩ :=
    left_function first entered through
  have sub : between ⊆ ts := by
    rw [split]
    intro u hu
    simp [hu]
  have same := (between_texts source lawful sub others none).same past network fun _ => rfl
  simp only [network, Prod.mk.injEq] at same
  obtain ⟨_, _, _, _, sameLasts, sameEnds, _⟩ := same
  obtain ⟨d, enteredNext, _⟩ := passes_append.mp (show Passes ([.enter l vs] ++ _) b _ from rest)
  have onEntry := passes_append.mpr ⟨b, whole, enteredNext⟩
  have accountedNext := enteredNext.accounted accounted
  have entering : Hook.onEnter? l.category = some .enterFunction := by rw [second]; rfl
  rw [Passes, heed_enter entering, heed, bind_pure_unit] at enteredNext
  obtain ⟨own, own_last, number, edge⟩ :=
    enterFunction_connects late (congrArg Depths.ifLevels depths)
      (congrArg Depths.forLevels depths) letter named colon (sameLasts ▸ lasts)
      (sameEnds ▸ ends) enteredNext
  have member : own ∈ d.nodes := List.mem_of_getLast? own_last
  have inside : openedWith h ts (before ++ .node k us :: between) ++ [.enter l vs] <+:
      openedWith h ts (before ++ .node k us :: between) ++ (Tree.node l vs).walk :=
    (List.prefix_append_right_inj _).mpr (by rw [Tree.walk]; exact List.prefix_append [_] _)
  refine ⟨last, own, by rw [through.built, newest], by rw [madeOnEntering, onEntry.built, own_last],
    made, ⟨named_mono inside ?_, fun old => ?_⟩, ?_, ?_⟩
  · rw [onEntry.built]
    exact accountedNext.node_named member
  · have early := accounted.named_le (whole.built ▸ old)
    omega
  · rw [Statement.joins, endNode_port colon, endNode_port (accountedNext.named own member).whole]
  · refine (built_grows ?_).subset (onEntry.built.symm ▸ edge)
    refine inside.trans ?_
    rw [walk_source split]
    exact (List.prefix_append_right_inj _).mpr (List.prefix_append _ _)

end

/-- Two functions of a source whose walk is completed. They are not joined by an edge if no block
has been entered when the second one is. If neither a function nor a block stands between them, they
are joined just if a block has been entered by the time the first one is left; an edge then leads
from its last node to the entry of the second. -/
theorem neighbours_joined_iff (h : Head) (ts : List Tree) (source : h.category = .sourceFile)
    (lawful : (Tree.node h ts).Lawful)
    (completed : ((Builder.new .late).follow (.node h ts)).mishap = none)
    (before between after : List Tree) (k l : Head) (us vs : List Tree)
    (split : ts = before ++ .node k us :: between ++ .node l vs :: after)
    (first : k.category = .functionDecl) (second : l.category = .functionDecl) :
    let graph := ((Builder.new .late).follow (.node h ts)).builder.graph
    let start := openedWith h ts before
    let middle := openedWith h ts (before ++ .node k us :: between)
    let joined := Joined graph (MadeIn start (.node k us)) (MadeIn middle (.node l vs))
    (¬ Enters .block middle → ¬ joined) ∧
      ((∀ u ∈ between, u.category? ≠ some .functionDecl) → ¬ Enters .block (Tree.walkAll between) →
        (joined ↔ Enters .block (start ++ (Tree.node k us).walk)) ∧
          (Enters .block (start ++ (Tree.node k us).walk) →
            ∃ last own, (built (start ++ (Tree.node k us).walk)).nodes.getLast? = some last ∧
              madeOnEntering middle l vs = some own ∧
              .edge (last ++ ":" ++ "s") (own ++ ":" ++ "n") [] ∈ graph)) := by
  intro graph start middle joined
  have unjoined (none : ¬ Enters .block middle) : ¬ joined :=
    unjoined_of_blockless source lawful completed split (congrArg some second) fun entered =>
      none (entered.mono (List.subset_cons_self _ _))
  refine ⟨unjoined, fun others none => ?_⟩
  have leads (entered : Enters .block (start ++ (Tree.node k us).walk)) :=
    ends_into_next source lawful completed split first second others none entered
  refine ⟨⟨fun joins => ?_, fun entered => ?_⟩, fun entered => ?_⟩
  · by_contra early
    refine unjoined (fun entered => ?_) joins
    obtain ⟨j, ws, member, block⟩ := entered
    rw [show middle = start ++ (Tree.node k us).walk ++ Tree.walkAll between from openedWith_append
      h ts before _ _] at member
    rcases List.mem_append.mp member with inside | beyond
    · exact early ⟨j, ws, inside, block⟩
    · exact none ⟨j, ws, beyond, block⟩
  · obtain ⟨last, own, _, _, madeFirst, madeSecond, joins, edge⟩ := leads entered
    exact ⟨last, own, ⟨_, edge, .inl joins⟩, madeFirst, madeSecond⟩
  · obtain ⟨last, own, newest, entry, _, _, _, edge⟩ := leads entered
    exact ⟨last, own, newest, entry, edge⟩

section

open GoFlow.Tree

def twoFunctions : List Tree := [func "f" [], func "g" []]

theorem twoFunctions_joined :
    (of .sourceFile twoFunctions).Lawful ∧
      ((Builder.new .late).follow (of .sourceFile twoFunctions)).mishap = none ∧
      Joined ((Builder.new .late).follow (of .sourceFile twoFunctions)).builder.graph
        (MadeIn (openedWith ⟨.sourceFile, none, []⟩ twoFunctions []) (func "f" []))
        (MadeIn (openedWith ⟨.sourceFile, none, []⟩ twoFunctions [func "f" []]) (func "g" [])) := by
  have lawful : (of .sourceFile twoFunctions).Lawful := by decide +kernel
  have completed : ((Builder.new .late).follow (of .sourceFile twoFunctions)).mishap = none := by
    decide +kernel
  have neighbours := (neighbours_joined_iff _ _ rfl lawful completed [] [] [] _ _ _ _ rfl rfl rfl).2
    nofun (by rintro ⟨_, _, ⟨⟩, _⟩)
  refine ⟨lawful, completed, neighbours.1.mpr ⟨⟨.block, none, []⟩, (braces []).children, ?_, rfl⟩⟩
  simp [Tree.walk, Tree.walkAll, braces, of, Tree.children]

end

end GoFlow
