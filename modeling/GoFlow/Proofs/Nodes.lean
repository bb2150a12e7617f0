import GoFlow.Proofs.Naming
import GoFlow.Proofs.Perform

/-! Nodes as a builder finds them: the entries of its stacks that stand for known nodes, the node
made after another, and the kind that a new one is made of. -/

namespace GoFlow

open Dot (Statement endNode)

namespace Dot.Statement

/-- The name of the node that is declared. -/
def declares : Statement → Option String
  | .node name _ _ => some name
  | _ => none

/-- The two nodes that an edge joins. -/
def joins : Statement → List String
  | .edge tail head _ => [endNode tail, endNode head]
  | _ => []

end Dot.Statement

/-- The kinds that the names of nodes begin with. -/
def nodeKinds : List String := ["b", "t", "e", "f", "if", "l"]

/-- A name that a builder gives to a node. -/
def NodeName (s : String) : Prop := ∃ kind ∈ nodeKinds, ∃ n : Nat, s = kind ++ toString n

namespace NodeName

variable {s : String}

theorem lettered {kind : String} (known : kind ∈ nodeKinds) : Lettered kind := by
  revert kind
  decide

theorem whole (h : NodeName s) : ':' ∉ s.toList := by
  obtain ⟨kind, known, n, rfl⟩ := h
  exact colon_not_mem_append (lettered known) n

theorem endNode_eq (h : NodeName s) : endNode s = s := endNode_of_no_colon h.whole

theorem head? (h : NodeName s) : s.toList.head? ∈ ['b', 't', 'e', 'f', 'i', 'l'].map some := by
  obtain ⟨kind, known, n, rfl⟩ := h
  have letters : ∀ kind ∈ nodeKinds, kind.toList ≠ [] ∧
      kind.toList.head? ∈ ['b', 't', 'e', 'f', 'i', 'l'].map some := by
    decide
  obtain ⟨some, first⟩ := letters kind known
  obtain ⟨c, cs, split⟩ := List.exists_cons_of_ne_nil some
  rw [split] at first
  rwa [String.toList_append, split]

theorem real (h : NodeName s) : s.toList.head? ≠ some 'd' := fun same =>
  absurd (same ▸ h.head?) (by decide)

theorem ne_empty (h : NodeName s) : s ≠ "" := by
  rintro rfl
  exact absurd h.head? (by decide)

end NodeName

namespace Item

theorem mem_addTo {x y : Item} {stack : List Item} (h : y ∈ x.addTo stack) :
    y = x ∨ y ∈ stack := by
  unfold addTo at h
  split at h
  · exact .inr h
  · exact List.mem_cons.mp h

theorem addTo_ne_nil (x : Item) (stack : List Item) : x.addTo stack ≠ [] := by
  cases stack with
  | nil => simp [addTo, isTop]
  | cons y stack =>
      unfold addTo
      split <;> simp

theorem namesAll_append (xs ys : List Item) : namesAll (xs ++ ys) = namesAll xs ++ namesAll ys := by
  induction xs with
  | nil => rfl
  | cons x xs ih => rw [List.cons_append, namesAll, namesAll, ih, List.append_assoc]

theorem names_pair (x y : Item) : (group [x, y]).names = x.names ++ y.names := by
  simp [names, namesAll]

theorem names_joinEnds (x y : Item) : (Move.joinEnds x y).names = x.names ++ y.names := by
  cases x <;> cases y <;> simp [Move.joinEnds, names, namesAll, namesAll_append]

theorem names_subset_of_mem {x : Item} {xs : List Item} (member : x ∈ xs) :
    x.names ⊆ namesAll xs := by
  induction xs with
  | nil => cases member
  | cons y ys ih =>
      intro s hs
      rw [namesAll, List.mem_append]
      rcases List.mem_cons.mp member with rfl | later
      · exact .inl hs
      · exact .inr (ih later hs)

/-- The entry has names, and each of them is that of a known node, by itself or with a port. -/
def Known (nodes : List String) (x : Item) : Prop :=
  x.names ≠ [] ∧ ∀ s ∈ x.names, ∃ n ∈ nodes, s = n ∨ ∃ port ∈ ["e", "w"], s = n ++ ":" ++ port

namespace Known

variable {nodes : List String} {x y : Item} {s : String}

theorem mono {more : List String} (h : x.Known nodes) : x.Known (nodes ++ more) := by
  refine ⟨h.1, fun s hs => ?_⟩
  obtain ⟨n, member, same⟩ := h.2 s hs
  exact ⟨n, List.mem_append_left _ member, same⟩

theorem name (member : s ∈ nodes) : (Item.name s).Known nodes := by
  refine ⟨by simp [names], fun t ht => ?_⟩
  cases List.mem_singleton.mp ht
  exact ⟨s, member, .inl rfl⟩

theorem endNode_mem (h : x.Known nodes) (named : ∀ n ∈ nodes, NodeName n) (hs : s ∈ x.names) :
    endNode s ∈ nodes := by
  obtain ⟨n, member, rfl | ⟨p, _, rfl⟩⟩ := h.2 s hs
  · rwa [(named _ member).endNode_eq]
  · rwa [endNode_port (named n member).whole]

/-- The first letter of a known entry can be looked at. -/
theorem startsWith (h : x.Known nodes) (named : ∀ n ∈ nodes, NodeName n) (letter : String) :
    ∃ v, x.startsWith letter = .ok v := by
  have first : ∃ u rest, x.units = u :: rest := by
    cases x with
    | name s =>
        have nonempty : s.toList ≠ [] := by
          obtain ⟨n, member, rfl | ⟨p, _, rfl⟩⟩ := h.2 s (by simp [names])
          · exact fun empty => (named _ member).ne_empty (String.toList_inj.mp empty)
          · simp
        obtain ⟨c, rest, split⟩ := List.exists_cons_of_ne_nil nonempty
        exact ⟨.name c.toString, _, by rw [units, split, List.map_cons]⟩
    | group xs =>
        cases xs with
        | nil => exact absurd rfl h.1
        | cons u rest => exact ⟨u, rest, rfl⟩
  obtain ⟨u, rest, split⟩ := first
  exact ⟨u == .name letter, by simp [Item.startsWith, unit, split, Except.map]⟩

end Known

end Item

namespace Move

variable {nodes : List String} {b c : Builder}

/-- One node was made right after another. -/
def Follows (nodes : List String) (s t : String) : Prop := ∃ pre post, nodes = pre ++ s :: t :: post

theorem Follows.left {s t : String} (h : Follows nodes s t) : s ∈ nodes := by
  obtain ⟨pre, post, rfl⟩ := h
  simp

theorem Follows.right {s t : String} (h : Follows nodes s t) : t ∈ nodes := by
  obtain ⟨pre, post, rfl⟩ := h
  simp

theorem Follows.lt {s t : String} (h : Follows nodes s t)
    (rising : nodes.Pairwise fun s t => nodeNumber s < nodeNumber t) :
    nodeNumber s < nodeNumber t := by
  obtain ⟨pre, post, rfl⟩ := h
  have tail := (List.pairwise_append.mp rising).2.1
  exact (List.pairwise_cons.mp tail).1 t List.mem_cons_self

theorem idxOf?_append_cons {s : String} {pre : List String} (h : s ∉ pre) (post : List String) :
    (pre ++ s :: post).idxOf? s = some pre.length := by
  refine List.idxOf?_eq_some_iff.mpr ⟨by simp, by simp, ?_⟩
  intro j hj same
  rw [List.getElem_append_left (by exact hj)] at same
  exact h (same ▸ List.getElem_mem hj)

theorem follows_of_places {s t : String} {i : Nat} (here : nodes.idxOf? s = some i)
    (next : nodes[i + 1]? = some t) : Follows nodes s t := by
  obtain ⟨less, at_i, _⟩ := List.idxOf?_eq_some_iff.mp here
  obtain ⟨less', at_succ⟩ := List.getElem?_eq_some_iff.mp next
  refine ⟨nodes.take i, nodes.drop (i + 2), ?_⟩
  rw [← at_i, ← at_succ, ← List.drop_eq_getElem_cons less', ← List.drop_eq_getElem_cons less,
    List.take_append_drop]

theorem perform_advance {s : String} (whole : ':' ∉ s.toList) :
    (∃ e, b.perform (advance (.name s)) = (.error e, b)) ∨
      ∃ t, Follows b.nodes s t ∧ b.perform (advance (.name s)) = (.ok (.name t), b) := by
  have same : String.ofList (s.toList.takeWhile (· != ':')) = s := endNode_of_no_colon whole
  have looked : b.perform (advance (.name s)) =
      b.perform (do return .name (← nodeAt ((← indexOf s) + 1))) := by
    rw [advance, Builder.perform_bind_ok (Builder.perform_edition b)]
    cases b.edition with
    | early => rfl
    | late => simp only [same]
  rw [looked]
  simp only [Builder.perform_bind, Builder.perform_indexOf]
  cases here : b.nodes.idxOf? s with
  | none => exact .inl ⟨_, rfl⟩
  | some i =>
      simp only [Builder.perform_nodeAt]
      cases next : b.nodes[i + 1]? with
      | none => exact .inl ⟨_, rfl⟩
      | some t => exact .inr ⟨t, follows_of_places here next, rfl⟩

/-- Before the node made after a node stands that node. -/
theorem perform_nodeBefore {s t : String}
    (rising : b.nodes.Pairwise fun s t => nodeNumber s < nodeNumber t) (whole : ':' ∉ t.toList)
    (next : Follows b.nodes s t) : b.perform (nodeBefore (.name t)) = (.ok s, b) := by
  have named : (Item.name t).nodeName = .ok t := by
    have same : String.ofList (t.toList.takeWhile (· != ':')) = t := endNode_of_no_colon whole
    rw [Item.nodeName, same]
  obtain ⟨pre, post, split⟩ := next
  rw [split] at rising
  have fresh : t ∉ pre ++ [s] := by
    intro member
    have apart := (List.pairwise_append.mp (by simpa using rising :
      (pre ++ [s] ++ t :: post).Pairwise fun s t => nodeNumber s < nodeNumber t)).2.2
    exact Nat.lt_irrefl _ (apart t member t List.mem_cons_self)
  have place : b.nodes.idxOf? t = some (pre.length + 1) := by
    have := idxOf?_append_cons fresh post
    rw [split]
    simpa using this
  have before : b.nodes[pre.length]? = some s := by
    rw [split]
    simp
  simp only [nodeBefore, named, Builder.perform_bind, Builder.perform_lift, Builder.perform_indexOf,
    place, Builder.perform_nodeAt, before]

theorem atIfLevel_looks : Looks atIfLevel := fun _ => rfl

theorem innermostIf_looks : Looks innermostIf := by
  intro b
  rw [Builder.perform_innermostIf]
  cases b.ifs <;> rfl

theorem blockKind_mem {P : Builder → Prop} :
    Ensures P blockKind (fun kind b => kind ∈ ["b", "t", "e"] ∧ P b) P := by
  have plain : Ensures P (pure "b") (fun kind b => kind ∈ ["b", "t", "e"] ∧ P b) P :=
    Ensures.pure fun c hc => ⟨by decide, hc⟩
  have asked (x : Item) (s : String) : Keeps P (liftM (x.startsWith s)) := (Looks.lift _).keeps
  apply Ensures.look
  intro b hb
  refine Ensures.weaken (P := P) ?_ (by rintro _ rfl; exact hb) (fun _ _ h => h) fun _ h => h
  split
  · refine (asked _ _).bind fun isThen => ?_
    split
    · exact Ensures.pure fun c hc => ⟨by decide, hc⟩
    · split
      · exact Ensures.pure fun c hc => ⟨by split <;> decide, hc⟩
      · refine atIfLevel_looks.keeps.bind fun level => ?_
        split
        · split
          · refine (asked _ _).bind fun isElse => ?_
            exact Ensures.pure fun c hc => ⟨by split <;> decide, hc⟩
          · exact plain
        · exact plain
  · exact plain

theorem nodeKind_chosen {kind k : String} (chosen : b.perform (nodeKind kind) = (.ok k, c)) :
    (if kind = "b" then k ∈ ["b", "t", "e"] else k = kind) ∧ c = b := by
  have kinded : Ensures (fun d => d = b) (nodeKind kind)
      (fun k d => (if kind = "b" then k ∈ ["b", "t", "e"] else k = kind) ∧ d = b)
      (fun _ => True) := by
    unfold nodeKind
    split
    · exact blockKind_mem.weaken (fun _ h => h) (fun _ _ h => h) fun _ _ => trivial
    · exact Ensures.pure fun d hd => ⟨rfl, hd⟩
  exact (kinded b rfl).1 k c chosen

/-- The kind of a node that has been made could be told. -/
theorem nodeKind_told {kind content shape name : String}
    (made : b.perform (newNode kind content shape) = (.ok name, c)) :
    ∃ k, { b with count := b.count + 1 }.perform (nodeKind kind) =
        (.ok k, { b with count := b.count + 1 }) ∧
      if kind = "b" then k ∈ ["b", "t", "e"] else k = kind := by
  rw [newNode_eq, Builder.perform_bind_ok (Builder.perform_modify b _)] at made
  obtain ⟨k, d, told, -⟩ := Builder.of_perform_bind made
  obtain ⟨chosen, rfl⟩ := nodeKind_chosen told
  exact ⟨k, told, chosen⟩

theorem mem_nodeKinds {kind k : String} (known : kind ∈ ["b", "f", "if", "l"])
    (chosen : if kind = "b" then k ∈ ["b", "t", "e"] else k = kind) : k ∈ nodeKinds := by
  split at chosen
  · exact (by decide : ["b", "t", "e"] ⊆ nodeKinds) chosen
  · exact (by decide : ["b", "f", "if", "l"] ⊆ nodeKinds) (chosen ▸ known)

/-- Where the nodes have proper names and the lasts stand for them, the kind of a node can be
told. -/
theorem perform_nodeKind (named : ∀ s ∈ b.nodes, NodeName s)
    (lasts : ∀ x ∈ b.lasts, x.Known b.nodes) (kind : String) :
    ∃ k, b.perform (nodeKind kind) = (.ok k, b) := by
  have asked (x : Item) (hx : ∃ v, x.startsWith "i" = .ok v) (f : Bool → Move String)
      (rest : ∀ v, ∃ k, b.perform (f v) = (.ok k, b)) :
      ∃ k, b.perform (liftM (x.startsWith "i") >>= f) = (.ok k, b) := by
    obtain ⟨v, hv⟩ := hx
    rw [hv, Builder.perform_bind_ok (Builder.perform_lift b _)]
    exact rest v
  unfold nodeKind
  split
  · unfold blockKind
    rw [Builder.perform_bind_ok (Builder.perform_get b)]
    cases last : b.nodes.getLast? with
    | none => exact ⟨_, rfl⟩
    | some name =>
        cases b.ifs with
        | nil => exact ⟨_, rfl⟩
        | cons branches rest =>
            have known : (Item.name name).Known b.nodes := .name (List.mem_of_getLast? last)
            refine asked _ (known.startsWith named "i") _ fun isThen => ?_
            cases isThen with
            | true => exact ⟨_, rfl⟩
            | false =>
                rw [if_neg Bool.false_ne_true]
                cases b.edition with
                | early => exact ⟨_, rfl⟩
                | late =>
                    have level : b.perform atIfLevel =
                        (.ok (b.ifLevels.head? == some b.level), b) := rfl
                    rw [Builder.perform_bind_ok level]
                    split
                    · split
                      · rename_i y x below lastsEq
                        refine asked x ((lasts x ?_).startsWith named "i") _ fun v => ⟨_, rfl⟩
                        simp [lastsEq]
                      · exact ⟨_, rfl⟩
                    · exact ⟨_, rfl⟩
  · exact ⟨kind, rfl⟩

theorem beginsApart_looks (last : Item) : Looks (beginsApart last) := by
  apply Looks.get.bind
  intro b
  cases b.edition with
  | early =>
      dsimp only
      split
      · exact Looks.pure _
      · split
        · exact Looks.pure _
        · exact Looks.lift _
  | late =>
      refine (Looks.lift _).bind fun isThen => atIfLevel_looks.bind fun level => ?_
      have loops (isElse : Bool) : Looks (do
          let isLoop ←
            if b.forLevels.head? == some b.level then (last.startsWith "l" : Except Mishap Bool)
            else pure false
          return isThen || isElse || isLoop : Move Bool) := by
        split
        · exact (Looks.lift _).bind fun _ => Looks.pure _
        · exact (Looks.pure _).bind fun _ => Looks.pure _
      cases level with
      | false => exact (Looks.pure _).bind loops
      | true =>
          rw [if_pos rfl]
          refine innermostIf_looks.bind fun branches => ?_
          cases branches with
          | thenOnly => exact (Looks.pure _).bind loops
          | thenElse =>
              rw [if_pos rfl]
              rcases b.ends with _ | ⟨y, _ | ⟨x, rest⟩⟩
              · exact (Looks.pure _).bind loops
              · exact (Looks.pure _).bind loops
              · exact (Looks.lift _).bind loops

end Move

end GoFlow
