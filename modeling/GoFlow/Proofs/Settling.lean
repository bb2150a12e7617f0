import GoFlow.Proofs.Rewiring

/-! How an entry is connected with a node, and how a node that has been made is settled. Each case
is given as what becomes of the lasts and the ends, with the edges that are drawn. -/

namespace GoFlow

open Dot (Statement endNode)

/-- A node is to be noted on top of the ends. -/
def notes (head : String) : List Item → Bool
  | [] => true
  | last :: _ => last ≠ .name head &&
      (head.toList.head? ≠ some 'd' || last.isGroup && !last.members.contains (.name head))

def noted (head : String) (ends : List Item) : List Item :=
  if notes head ends then .name head :: ends else ends

theorem noted_noted (head : String) (ends : List Item) :
    noted head (noted head ends) = noted head ends := by
  cases fresh : notes head ends with
  | false => simp [noted, fresh]
  | true =>
      have top : notes head (.name head :: ends) = false := by simp [notes]
      simp [noted, fresh, top]

theorem head?_noted {head : String} (real : head.toList.head? ≠ some 'd') (ends : List Item) :
    (noted head ends).head? = some (.name head) := by
  unfold noted
  split
  · rfl
  · rename_i known
    cases ends with
    | nil => simp [notes] at known
    | cons last ends => simpa [notes, real] using known

theorem mem_noted {head : String} {ends : List Item} {x : Item} (member : x ∈ noted head ends) :
    x = .name head ∨ x ∈ ends := by
  unfold noted at member
  split at member
  · exact List.mem_cons.mp member
  · exact .inr member

namespace Move

variable {b c : Builder} {name : String}

theorem startsWith_name (named : name ≠ "") (letter : Char) :
    (Item.name name).startsWith letter.toString =
      .ok (decide (name.toList.head? = some letter)) := by
  obtain ⟨first, rest, split⟩ :=
    List.exists_cons_of_ne_nil (fun empty => named (String.toList_inj.mp empty))
  have same : Item.name first.toString = .name letter.toString ↔ first = letter := by
    simp [Char.toString_eq_singleton]
  rw [Item.startsWith, Item.unit, Item.units, split]
  simp only [List.map_cons, List.getElem?_cons_zero, Except.map, List.head?_cons,
    Option.some.injEq, beq_eq_decide, same]

/-- The editions treat dummies differently, and all other nodes alike. -/
theorem perform_noteEnd (alike : b.edition = .late ∨ name.toList.head? ≠ some 'd')
    (named : name ≠ "") :
    b.perform (noteEnd (.name name)) = (.ok (), { b with ends := noted name b.ends }) := by
  have letter : (Item.name name).startsWith "d" = .ok (decide (name.toList.head? = some 'd')) :=
    startsWith_name named 'd'
  suffices b.perform (noteEnd (.name name)) =
      b.perform (if notes name b.ends then pushEnd (.name name) else pure ()) by
    rw [this, noted]
    split <;> rfl
  unfold noteEnd
  rw [Builder.perform_bind_ok (Builder.perform_get b)]
  cases ends : b.ends with
  | nil => rfl
  | cons last below =>
      dsimp only [notes]
      by_cases beside : (last.isGroup && !last.members.contains (.name name)) = true
      · have other : last ≠ .name name := by
          rintro rfl
          cases beside
        simp only [beside, if_true, other, ne_eq, not_false_eq_true, decide_true, Bool.or_true,
          Bool.and_true]
      · by_cases same : last = .name name
        · simp [same, Item.isGroup]
        · rw [if_neg beside, if_pos (Ne.symm same),
            Builder.perform_bind_ok (Builder.perform_edition b)]
          simp only [Bool.not_eq_true] at beside
          simp only [beside, same, ne_eq, not_false_eq_true, decide_true, decide_not, Bool.or_false,
            Bool.true_and]
          cases edition : b.edition with
          | late =>
              dsimp only
              rw [letter, Builder.perform_bind_ok (Builder.perform_lift b _)]
          | early =>
              have real := alike.resolve_left (by rw [edition]; decide)
              rw [decide_eq_false real]
              rfl

def link (tail head : String) (attributes : List (String × String)) : Statement :=
  .edge (ported tail "s") (ported head "n") attributes

@[simp] theorem joins_link (tail head : String) (attributes : List (String × String)) :
    (link tail head attributes).joins = [endNode tail, endNode head] := by
  rw [link, Statement.joins, endNode_ported, endNode_ported]

theorem perform_edge (b : Builder) (tail head : String) (attributes : List (String × String)) :
    b.perform (edge (.name tail) (.name head) attributes) =
      (.ok (), { b with graph := b.graph ++ [link tail head attributes] }) := by
  rw [edge, directed_name, directed_name, Builder.perform_emit]
  rfl

theorem perform_connect_name (b : Builder) (tail head : String)
    (attributes : List (String × String)) :
    b.perform (connect (.name tail) (.name head) true attributes) =
      (.ok (), { b with graph := b.graph ++ [link tail head attributes] }) := by
  rw [connect, Builder.perform_bind_ok (perform_edge b tail head attributes)]
  rfl

def edgesFrom (head : String) (tails : List String) : List Statement :=
  tails.map fun s => link s head []

theorem edgesFrom_append (head : String) (xs ys : List String) :
    edgesFrom head (xs ++ ys) = edgesFrom head xs ++ edgesFrom head ys :=
  List.map_append

mutual

/-- The late edition draws the edges of a group by hand without looking at anything. -/
theorem perform_connect_late {b : Builder} (late : b.edition = .late) (x : Item) (head : String) :
    b.perform (connect x (.name head) true []) =
      (.ok (), { b with graph := b.graph ++ edgesFrom head x.names }) := by
  cases x with
  | name s => exact perform_connect_name b s head []
  | group xs =>
      rw [connect, Builder.perform_bind_ok (perform_connectAll_late late xs head)]
      rfl

theorem perform_connectAll_late {b : Builder} (late : b.edition = .late) (xs : List Item)
    (head : String) :
    b.perform (connectAll xs (.name head) true) =
      (.ok (), { b with graph := b.graph ++ edgesFrom head (Item.namesAll xs) }) := by
  cases xs with
  | nil => simp [connectAll, edgesFrom, Item.namesAll]
  | cons x xs =>
      have manual : (true && decide (b.edition = .late)) = true := by simp [late]
      rw [connectAll, Builder.perform_bind_ok (Builder.perform_edition b), manual,
        Builder.perform_bind_ok (perform_connect_late late x head),
        perform_connectAll_late (by exact late), Item.namesAll, edgesFrom_append,
        ← List.append_assoc]

end

mutual

/-- A group is connected with a node without a look at anything, and the node is noted once. -/
theorem perform_connect_noting {b : Builder}
    (alike : b.edition = .late ∨ name.toList.head? ≠ some 'd') (named : name ≠ "") (x : Item) :
    b.perform (connect x (.name name) false []) =
      (.ok (), { b with
        graph := b.graph ++ edgesFrom name x.names
        ends := noted name b.ends }) := by
  cases x with
  | name s =>
      rw [connect, Builder.perform_bind_ok (perform_edge b s name [])]
      simp only [Bool.not_false, if_true]
      rw [perform_noteEnd (by exact alike) named]
      rfl
  | group xs =>
      rw [connect]
      obtain ⟨ends, connected, same⟩ := perform_connectAll_noting alike named xs
      rw [Builder.perform_bind_ok connected]
      simp only [Bool.not_false, if_true]
      rw [perform_noteEnd (by exact alike) named, same, Item.names]

theorem perform_connectAll_noting {b : Builder}
    (alike : b.edition = .late ∨ name.toList.head? ≠ some 'd') (named : name ≠ "")
    (xs : List Item) :
    ∃ ends, b.perform (connectAll xs (.name name) false) =
      (.ok (), { b with
        graph := b.graph ++ edgesFrom name (Item.namesAll xs)
        ends := ends }) ∧
      noted name ends = noted name b.ends := by
  cases xs with
  | nil => exact ⟨b.ends, by simp [connectAll, edgesFrom, Item.namesAll], rfl⟩
  | cons x xs =>
      rw [connectAll, Builder.perform_bind_ok (Builder.perform_edition b), Bool.false_and,
        Builder.perform_bind_ok (perform_connect_noting alike named x)]
      obtain ⟨ends, connected, same⟩ := perform_connectAll_noting
        (b := { b with graph := b.graph ++ edgesFrom name x.names, ends := noted name b.ends })
        (by exact alike) named xs
      refine ⟨ends, ?_, same.trans (noted_noted name b.ends)⟩
      rw [connected, Item.namesAll, edgesFrom_append, ← List.append_assoc]

end

theorem perform_connect_attributes (alike : b.edition = .late ∨ name.toList.head? ≠ some 'd')
    (named : name ≠ "") (tail : Item) (attributes : List (String × String)) :
    b.perform (connect tail (.name name) false attributes) =
      (.ok (), { b with
        graph := b.graph ++
          tail.names.map fun s => link s name (if tail.isGroup then [] else attributes)
        ends := noted name b.ends }) := by
  cases tail with
  | name s =>
      rw [connect, Builder.perform_bind_ok (perform_edge b s name attributes)]
      exact perform_noteEnd (by exact alike) named
  | group xs =>
      have connected := perform_connect_noting alike named (.group xs)
      rw [connect] at connected ⊢
      exact connected

/-- The late edition connects an entry with a node by one edge for each name of the entry, in their
order. If several are connected the edges have no attributes. The node is noted once at most, and
not at all by hand; everything else stays as it is. -/
theorem connect_draws_each_notes_once (late : b.edition = .late) (named : name ≠ "") (tail : Item)
    (attributes : List (String × String)) :
    let edges := tail.names.map fun s =>
      Statement.edge (ported s "s") (ported name "n") (if tail.isGroup then [] else attributes)
    b.perform (connect tail (.name name) false attributes) =
        (.ok (), { b with graph := b.graph ++ edges, ends := noted name b.ends }) ∧
      b.perform (connect tail (.name name) true attributes) =
        (.ok (), { b with graph := b.graph ++ edges }) := by
  refine ⟨perform_connect_attributes (.inl late) named tail attributes, ?_⟩
  cases tail with
  | name s => exact perform_connect_name b s name attributes
  | group xs =>
      have connected := perform_connect_late late (.group xs) name
      rw [connect] at connected ⊢
      exact connected

/-- A group with a port and a group in it, connected with a dummy node where the last end is a
group. -/
theorem nestedGroup_connected :
    let b : Builder := { Builder.new .late with ends := [.group [.name "t3", .name "e4"]] }
    let tail : Item := .group [.name "if2:e", .group [.name "t3", .group [], .name "e4"]]
    b.edition = .late ∧ "d5" ≠ "" ∧
      b.perform (connect tail (.name "d5") false [("label", "true")]) =
        (.ok (), { b with
          graph := [.edge "if2:e" "d5:n" [], .edge "t3:s" "d5:n" [], .edge "e4:s" "d5:n" []]
          ends := [.name "d5", .group [.name "t3", .name "e4"]] }) := by
  intro b tail
  have connected :=
    (@connect_draws_each_notes_once b "d5" rfl (by decide) tail [("label", "true")]).1
  have edges : tail.names.map (fun s => Statement.edge (ported s "s") (ported "d5" "n")
      (if tail.isGroup then [] else [("label", "true")])) =
      [.edge "if2:e" "d5:n" [], .edge "t3:s" "d5:n" [], .edge "e4:s" "d5:n" []] := by
    decide +kernel
  have ends : noted "d5" b.ends = [.name "d5", .group [.name "t3", .name "e4"]] := by
    decide +kernel
  rw [edges, ends] at connected
  exact ⟨rfl, by decide, connected⟩

/-- How a builder that has declared a node settles it: the lasts and the ends that it has then, and
the edges it draws. The first node of a branch or of a loop begins apart from what comes before it.
If this is not done, the node is left as it is, and the entry taken off the lasts is lost. -/
inductive Settles (done : Prop) (name : String) (b : Builder) :
    List Item → List Item → List Statement → Prop
  | first : b.lasts = [] → Settles done name b [] b.ends []
  | apart {last : Item} {below : List Item} : b.lasts = last :: below →
      ({ b with lasts := below }.perform (beginsApart last)).1 = .ok true →
      Settles done name b ((Item.name name).addTo (last.addTo below)) (.name name :: b.ends) []
  | joined {last tail : Item} {below under : List Item} : b.lasts = last :: below →
      b.ends = tail :: under →
      ({ b with lasts := below }.perform (beginsApart last)).1 = .ok false →
      Settles done name b ((Item.name name).addTo below) (noted name under)
        (edgesFrom name tail.names)
  | stopped {last : Item} {below : List Item} : ¬ done → b.lasts = last :: below →
      Settles done name b below b.ends []

theorem settle_outcome (alike : b.edition = .late ∨ name.toList.head? ≠ some 'd')
    (named : name ≠ "") :
    (∃ lasts ends edges, Settles True name b lasts ends edges ∧
      b.perform (if b.lasts.isEmpty then pure () else settle name) =
        (.ok (), { b with lasts := lasts, ends := ends, graph := b.graph ++ edges })) ∨
      ∃ e last below, b.lasts = last :: below ∧
        b.perform (if b.lasts.isEmpty then pure () else settle name) =
          (.error e, { b with lasts := below }) := by
  by_cases empty : b.lasts = []
  · refine .inl ⟨_, _, _, .first empty, ?_⟩
    rw [if_pos (by rw [empty]; rfl), List.append_nil, ← empty]
    rfl
  obtain ⟨last, below, lasts⟩ := List.exists_cons_of_ne_nil empty
  have popped : b.perform popLast = (.ok last, { b with lasts := below }) := by
    rw [Builder.perform_popLast, lasts]
  rw [if_neg (by rw [lasts]; exact Bool.false_ne_true), settle, Builder.perform_bind_ok popped]
  rcases asked : { b with lasts := below }.perform (beginsApart last) with ⟨e | apart, d⟩
  · cases (beginsApart_looks last).unchanged asked
    exact .inr ⟨e, last, below, lasts, Builder.perform_bind_error asked _⟩
  cases (beginsApart_looks last).unchanged asked
  have told : ({ b with lasts := below }.perform (beginsApart last)).1 = .ok apart := by rw [asked]
  rw [Builder.perform_bind_ok asked]
  cases apart with
  | true =>
      refine .inl ⟨_, _, _, .apart lasts told, ?_⟩
      rw [List.append_nil]
      rfl
  | false =>
      rw [if_neg Bool.false_ne_true]
      by_cases none : b.ends = []
      · have stopped : { b with lasts := below }.perform popEnd =
            (.error .emptyStack, { b with lasts := below }) := by
          rw [Builder.perform_popEnd]
          simp only [none]
        exact .inr ⟨_, last, below, lasts, Builder.perform_bind_error stopped _⟩
      · obtain ⟨tail, under, ends⟩ := List.exists_cons_of_ne_nil none
        have taken : { b with lasts := below }.perform popEnd =
            (.ok tail, { b with lasts := below, ends := under }) := by
          rw [Builder.perform_popEnd]
          simp only [ends]
        refine .inl ⟨_, _, _, .joined lasts ends told, ?_⟩
        rw [Builder.perform_bind_ok taken,
          Builder.perform_bind_ok (perform_connect_noting (by exact alike) named _)]
        rfl

theorem newNode_outcome {kind k text : String} (content shape : String) (known : k ∈ nodeKinds)
    (told : { b with count := b.count + 1 }.perform (nodeKind kind) =
      (.ok k, { b with count := b.count + 1 }))
    (named : name = k ++ toString (b.count + 1))
    (label : text = nodeLabel b.edition b.held content k name) :
    (∃ lasts ends edges drawings drawn,
      Settles True name (declared b name text shape) lasts ends edges ∧
      b.perform (newNode kind content shape) = (.ok name, { b with
        count := b.count + 1
        nodes := b.nodes ++ [name]
        lasts := lasts
        ends := ends
        graph := b.graph ++ .node name text shape :: edges
        drawings := drawings
        drawn := drawn })) ∨
      ∃ e last below, b.lasts = last :: below ∧
        b.perform (newNode kind content shape) =
          (.error e, { declared b name text shape with lasts := below }) := by
  have node : NodeName name := ⟨k, known, _, named⟩
  rw [perform_newNode told named, ← label]
  rcases @settle_outcome (declared b name text shape) name (.inr node.real) node.ne_empty with
    ⟨lasts, ends, edges, settles, done⟩ | ⟨e, last, below, lasts, stopped⟩
  · rw [Builder.perform_bind_ok (by exact done)]
    by_cases late : b.edition = .late
    · rw [if_pos late]
      refine .inl ⟨lasts, ends, edges, b.drawings + 1,
        some (b.graph ++ .node name text shape :: edges), settles, ?_⟩
      rw [Builder.perform_bind_ok (Builder.perform_draw _)]
      simp [declared]
    · rw [if_neg late]
      refine .inl ⟨lasts, ends, edges, b.drawings, b.drawn, settles, ?_⟩
      simp [declared]
  · exact .inr ⟨e, last, below, lasts, Builder.perform_bind_error (by exact stopped) _⟩

theorem newNode_settles {kind content shape : String} (known : kind ∈ ["b", "f", "if", "l"])
    (made : b.perform (newNode kind content shape) = (.ok name, c)) :
    ∃ k text lasts ends edges drawings drawn,
      (if kind = "b" then k ∈ ["b", "t", "e"] else k = kind) ∧
      name = k ++ toString (b.count + 1) ∧
      Settles True name (declared b name text shape) lasts ends edges ∧
      c = { b with
        count := b.count + 1
        nodes := b.nodes ++ [name]
        lasts := lasts
        ends := ends
        graph := b.graph ++ .node name text shape :: edges
        drawings := drawings
        drawn := drawn } := by
  obtain ⟨k, told, chosen⟩ := nodeKind_told made
  rcases newNode_outcome content shape (mem_nodeKinds known chosen) told rfl rfl with
    ⟨lasts, ends, edges, drawings, drawn, settles, done⟩ | ⟨e, _, _, _, stopped⟩
  · cases made.symm.trans done
    exact ⟨k, _, lasts, ends, edges, drawings, drawn, chosen, rfl, settles, rfl⟩
  · cases made.symm.trans stopped

end Move

end GoFlow
