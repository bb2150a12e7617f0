import GoFlow.Flow.Hook

/-! How moves act on a builder, and a rule for each way of composing them. `Move.Ensures` speaks of
both outcomes of a move: what holds when it is done, and what holds of the builder it leaves behind
when it is stopped. -/

namespace GoFlow

namespace Builder

variable {α β : Type}

@[simp] theorem perform_pure (b : Builder) (a : α) : b.perform (pure a) = (.ok a, b) := rfl

@[simp] theorem perform_get (b : Builder) : b.perform (get : Move Builder) = (.ok b, b) := rfl

@[simp] theorem perform_modify (b : Builder) (f : Builder → Builder) :
    b.perform (modify f : Move Unit) = (.ok (), f b) := rfl

@[simp] theorem perform_lift (b : Builder) (x : Except Mishap α) :
    b.perform (liftM x : Move α) = (x, b) := by
  cases x <;> rfl

theorem perform_bind (b : Builder) (m : Move α) (f : α → Move β) :
    b.perform (m >>= f) =
      match b.perform m with
      | (.ok a, c) => c.perform (f a)
      | (.error e, c) => (.error e, c) := by
  change (ExceptT.bind m f).run b = _
  simp only [ExceptT.bind, ExceptT.run, ExceptT.mk, ExceptT.bindCont, bind, StateT.bind]
  generalize h : b.perform m = r
  change m b = r at h
  rw [h]
  obtain ⟨x | x, c⟩ := r <;> rfl

theorem perform_bind_ok {b c : Builder} {m : Move α} {a : α} (h : b.perform m = (.ok a, c))
    (f : α → Move β) : b.perform (m >>= f) = c.perform (f a) := by
  rw [perform_bind, h]

theorem perform_bind_error {b c : Builder} {m : Move α} {e : Mishap}
    (h : b.perform m = (.error e, c)) (f : α → Move β) : b.perform (m >>= f) = (.error e, c) := by
  rw [perform_bind, h]

/-- A composed move that is done was done in both its parts. -/
theorem of_perform_bind {b d : Builder} {m : Move α} {f : α → Move β} {v : β}
    (h : b.perform (m >>= f) = (.ok v, d)) :
    ∃ a c, b.perform m = (.ok a, c) ∧ c.perform (f a) = (.ok v, d) := by
  rw [perform_bind] at h
  generalize b.perform m = r at h
  obtain ⟨e | a, c⟩ := r
  · cases h
  · exact ⟨a, c, rfl, h⟩

section

open Move

theorem perform_popOperand (b : Builder) :
    b.perform popOperand =
      match b.operands with
      | x :: xs => (.ok x, { b with operands := xs })
      | [] => (.error .emptyStack, b) := by
  rw [popOperand, perform_bind_ok (perform_get b)]
  cases b.operands <;> rfl

theorem perform_popFirst (b : Builder) :
    b.perform popFirst =
      match b.firsts with
      | x :: xs => (.ok x, { b with firsts := xs })
      | [] => (.error .emptyStack, b) := by
  rw [popFirst, perform_bind_ok (perform_get b)]
  cases b.firsts <;> rfl

theorem perform_popLast (b : Builder) :
    b.perform popLast =
      match b.lasts with
      | x :: xs => (.ok x, { b with lasts := xs })
      | [] => (.error .emptyStack, b) := by
  rw [popLast, perform_bind_ok (perform_get b)]
  cases b.lasts <;> rfl

theorem perform_popEnd (b : Builder) :
    b.perform popEnd =
      match b.ends with
      | x :: xs => (.ok x, { b with ends := xs })
      | [] => (.error .emptyStack, b) := by
  rw [popEnd, perform_bind_ok (perform_get b)]
  cases b.ends <;> rfl

theorem perform_popIf (b : Builder) :
    b.perform popIf =
      match b.ifs with
      | x :: xs => (.ok x, { b with ifs := xs })
      | [] => (.error .emptyStack, b) := by
  rw [popIf, perform_bind_ok (perform_get b)]
  cases b.ifs <;> rfl

theorem perform_popIfLevel (b : Builder) :
    b.perform popIfLevel =
      match b.ifLevels with
      | x :: xs => (.ok x, { b with ifLevels := xs })
      | [] => (.error .emptyStack, b) := by
  rw [popIfLevel, perform_bind_ok (perform_get b)]
  cases b.ifLevels <;> rfl

theorem perform_popForLevel (b : Builder) :
    b.perform popForLevel =
      match b.forLevels with
      | x :: xs => (.ok x, { b with forLevels := xs })
      | [] => (.error .emptyStack, b) := by
  rw [popForLevel, perform_bind_ok (perform_get b)]
  cases b.forLevels <;> rfl

theorem perform_innermostIf (b : Builder) :
    b.perform innermostIf =
      match b.ifs with
      | x :: _ => (.ok x, b)
      | [] => (.error .outOfRange, b) := by
  rw [innermostIf, perform_bind_ok (perform_get b)]
  cases b.ifs <;> rfl

theorem perform_lastNode (b : Builder) :
    b.perform lastNode =
      match b.nodes.getLast? with
      | some n => (.ok n, b)
      | none => (.error .outOfRange, b) := by
  rw [lastNode, perform_bind_ok (perform_get b)]
  cases b.nodes.getLast? <;> rfl

theorem perform_indexOf (b : Builder) (name : String) :
    b.perform (indexOf name) =
      match b.nodes.idxOf? name with
      | some i => (.ok i, b)
      | none => (.error (.unknownNode name), b) := by
  rw [indexOf, perform_bind_ok (perform_get b)]
  cases b.nodes.idxOf? name <;> rfl

theorem perform_nodeAt (b : Builder) (i : Nat) :
    b.perform (nodeAt i) =
      match b.nodes[i]? with
      | some n => (.ok n, b)
      | none => (.error .outOfRange, b) := by
  rw [nodeAt, perform_bind_ok (perform_get b)]
  cases b.nodes[i]? <;> rfl

@[simp] theorem perform_edition (b : Builder) : b.perform Move.edition = (.ok b.edition, b) := rfl

@[simp] theorem perform_emit (b : Builder) (s : Dot.Statement) :
    b.perform (emit s) = (.ok (), { b with graph := b.graph ++ [s] }) := rfl

@[simp] theorem perform_draw (b : Builder) :
    b.perform draw = (.ok (), { b with drawings := b.drawings + 1, drawn := some b.graph }) := rfl

@[simp] theorem perform_addFirst (b : Builder) (x : Item) :
    b.perform (addFirst x) = (.ok (), { b with firsts := x.addTo b.firsts }) := rfl

@[simp] theorem perform_addLast (b : Builder) (x : Item) :
    b.perform (addLast x) = (.ok (), { b with lasts := x.addTo b.lasts }) := rfl

@[simp] theorem perform_dropLast (b : Builder) (x : Item) :
    b.perform (dropLast x) = (.ok (), { b with lasts := b.lasts.erase x }) := rfl

@[simp] theorem perform_pushEnd (b : Builder) (x : Item) :
    b.perform (pushEnd x) = (.ok (), { b with ends := x :: b.ends }) := rfl

@[simp] theorem perform_pushOperand (b : Builder) (x : Item) :
    b.perform (pushOperand x) = (.ok (), { b with operands := x :: b.operands }) := rfl

end

end Builder

namespace Move

/-- The kind of a node. Only a block's is chosen. -/
def nodeKind (kind : String) : Move String := if kind = "b" then blockKind else pure kind

/-- Puts a node just made beside what stands on top of the lasts. -/
def settle (name : String) : Move Unit := do
  let last ← popLast
  if ← beginsApart last then
    addLast last
    pushEnd (.name name)
  else
    let tail ← popEnd
    connect tail (.name name) false []
  addLast (.name name)

/-- Makes a node of a kind that is settled already. -/
def makeNode (kind content shape : String) : Move String := do
  let b ← get
  let name := kind ++ toString b.count
  let content := if content.isEmpty && holdsText kind then b.held else content
  modify fun b => { b with nodes := b.nodes ++ [name] }
  emit (.node name (if b.edition = .early then content ++ " " ++ name else content) shape)
  (if b.lasts.isEmpty then pure () else settle name : Move Unit)
  (if b.edition = .late then draw else pure () : Move Unit)
  return name

theorem newNode_eq (kind content shape : String) :
    newNode kind content shape = (do
      modify fun b => { b with count := b.count + 1 }
      let k ← nodeKind kind
      makeNode k content shape) := by
  unfold newNode nodeKind makeNode
  dsimp only
  refine bind_congr fun _ => ?_
  split
  all_goals
    refine bind_congr fun k => bind_congr fun b => bind_congr fun _ => bind_congr fun _ => ?_
    cases b.lasts with
    | nil => cases b.edition <;> rfl
    | cons x xs =>
      simp only [List.isEmpty_cons, Bool.false_eq_true, if_false, settle, bind_assoc]
      refine bind_congr fun last => bind_congr fun apart => ?_
      cases apart <;> cases b.edition <;>
        simp only [if_true, Bool.false_eq_true, if_false, bind_assoc] <;> rfl

/-- The builder that has declared a node with the next number, and not settled it. -/
def declared (b : Builder) (name text shape : String) : Builder :=
  { b with
    count := b.count + 1
    nodes := b.nodes ++ [name]
    graph := b.graph ++ [.node name text shape] }

/-- The text of a node that is made. -/
def nodeLabel (ed : Edition) (held content kind name : String) : String :=
  let text := if content.isEmpty && holdsText kind then held else content
  if ed = .early then text ++ " " ++ name else text

/-- A node whose kind can be told is declared before anything else is done with it. -/
theorem perform_newNode {b : Builder} {kind k name : String}
    (told : { b with count := b.count + 1 }.perform (nodeKind kind) =
      (.ok k, { b with count := b.count + 1 }))
    (named : name = k ++ toString (b.count + 1)) (content shape : String) :
    b.perform (newNode kind content shape) =
      (declared b name (nodeLabel b.edition b.held content k name) shape).perform (do
        (if b.lasts.isEmpty then pure () else settle name : Move Unit)
        (if b.edition = .late then draw else pure () : Move Unit)
        return name) := by
  subst named
  rw [newNode_eq, Builder.perform_bind_ok (Builder.perform_modify b _),
    Builder.perform_bind_ok told]
  rfl

variable {α β : Type} {P P' : Builder → Prop} {Q Q' : α → Builder → Prop} {S S' : Builder → Prop}

/-- From a builder with `P` the move ends with `Q`, or it is stopped and leaves `S` behind. -/
def Ensures (P : Builder → Prop) (m : Move α) (Q : α → Builder → Prop) (S : Builder → Prop) :
    Prop :=
  ∀ b, P b → (∀ a c, b.perform m = (.ok a, c) → Q a c) ∧ (∀ e c, b.perform m = (.error e, c) → S c)

/-- The move keeps a property of the builder, whatever comes of it. -/
abbrev Keeps (P : Builder → Prop) (m : Move α) : Prop := Ensures P m (fun _ => P) P

theorem Ensures.weaken {m : Move α} (h : Ensures P m Q S) (before : ∀ b, P' b → P b)
    (after : ∀ a b, Q a b → Q' a b) (stopped : ∀ b, S b → S' b) : Ensures P' m Q' S' := by
  intro b hb
  obtain ⟨done, failed⟩ := h b (before b hb)
  exact ⟨fun a c e => after a c (done a c e), fun e c r => stopped c (failed e c r)⟩

/-- What a move ensures of the builder, done or stopped. -/
theorem Ensures.outcome {m : Move α} {R : Builder → Prop} (h : Ensures P m (fun _ => R) R)
    {b : Builder} (hb : P b) : R (b.perform m).2 := by
  obtain ⟨done, failed⟩ := h b hb
  rcases r : b.perform m with ⟨e | a, c⟩
  · exact failed e c r
  · exact done a c r

theorem ensured_of_ok {a : α} {b : Builder} (h : Q a b) :
    (∀ x c, ((.ok a : Except Mishap α), b) = (.ok x, c) → Q x c) ∧
      ∀ e c, ((.ok a : Except Mishap α), b) = (.error e, c) → S c := by
  refine ⟨?_, ?_⟩
  · rintro x c ⟨⟩
    exact h
  · rintro e c ⟨⟩

theorem ensured_of_error {e : Mishap} {b : Builder} (h : S b) :
    (∀ a c, ((.error e : Except Mishap α), b) = (.ok a, c) → Q a c) ∧
      ∀ x c, ((.error e : Except Mishap α), b) = (.error x, c) → S c := by
  refine ⟨?_, ?_⟩
  · rintro a c ⟨⟩
  · rintro x c ⟨⟩
    exact h

theorem Ensures.pure {a : α} (h : ∀ b, P b → Q a b) : Ensures P (pure a) Q S :=
  fun b hb => ensured_of_ok (h b hb)

theorem Ensures.modify {f : Builder → Builder} {Q : Unit → Builder → Prop}
    (h : ∀ b, P b → Q () (f b)) : Ensures P (modify f : Move Unit) Q S :=
  fun b hb => ensured_of_ok (h b hb)

theorem Ensures.lift {x : Except Mishap α} (done : ∀ a, x = .ok a → ∀ b, P b → Q a b)
    (stopped : ∀ b, P b → S b) : Ensures P (liftM x : Move α) Q S := by
  intro b hb
  simp only [Builder.perform_lift, Prod.mk.injEq]
  refine ⟨?_, ?_⟩
  · rintro a c ⟨same, rfl⟩
    exact done a same b hb
  · rintro e c ⟨same, rfl⟩
    exact stopped b hb

theorem Ensures.bind {m : Move α} {f : α → Move β} {R : β → Builder → Prop}
    (first : Ensures P m Q S) (next : ∀ a, Ensures (Q a) (f a) R S) : Ensures P (m >>= f) R S := by
  intro b hb
  rw [Builder.perform_bind]
  obtain ⟨done, failed⟩ := first b hb
  rcases h : b.perform m with ⟨e | a, c⟩
  · exact ensured_of_error (failed e c h)
  · exact next a c (done a c h)

/-- What is known of the outcome of a move may be used in what follows it. -/
theorem Ensures.given {m : Move α} {f : α → Move β} {A : α → Prop} {R : β → Builder → Prop}
    (first : Ensures P m (fun a b => A a ∧ P' b) S) (next : ∀ a, A a → Ensures P' (f a) R S) :
    Ensures P (m >>= f) R S :=
  first.bind fun a b hb => next a hb.1 b hb.2

/-- A move that looks at the builder first. -/
theorem Ensures.look {f : Builder → Move α} (h : ∀ b, P b → Ensures (fun c => c = b) (f b) Q S) :
    Ensures P (MonadState.get >>= f) Q S := by
  intro b hb
  rw [Builder.perform_bind_ok (Builder.perform_get b)]
  exact h b hb b rfl

/-- The move only looks at the builder. -/
def Looks (m : Move α) : Prop := ∀ b : Builder, (b.perform m).2 = b

theorem Looks.bind {m : Move α} {f : α → Move β} (first : Looks m) (next : ∀ a, Looks (f a)) :
    Looks (m >>= f) := by
  intro b
  rw [Builder.perform_bind]
  have same := first b
  rcases h : b.perform m with ⟨e | a, c⟩
  · simpa only [h] using same
  · have kept : c = b := by simpa only [h] using same
    subst kept
    exact next a c

theorem Looks.unchanged {m : Move α} (h : Looks m) {b c : Builder} {r : Except Mishap α}
    (done : b.perform m = (r, c)) : c = b := by
  have same := h b
  rwa [done] at same

theorem Looks.pure (a : α) : Looks (Pure.pure a) := fun _ => rfl

theorem Looks.get : Looks (MonadState.get : Move Builder) := fun _ => rfl

theorem Looks.lift (x : Except Mishap α) : Looks (liftM x) := by
  intro b
  rw [Builder.perform_lift]

theorem Looks.keeps {m : Move α} (h : Looks m) : Keeps P m := by
  intro b hb
  have same := h b
  refine ⟨?_, ?_⟩
  · intro a c e
    rw [e] at same
    cases same
    exact hb
  · intro x c e
    rw [e] at same
    cases same
    exact hb

end Move

/-- A text of lines, each of them with a blank at its end. -/
def Lined (s : String) : Prop := ∃ t, s = t ++ " \n"

namespace Builder

/-- The builder without the text it holds back and the declaration it reads. -/
def blank (b : Builder) : Builder :=
  { b with
    phase := .none
    typed := false
    operands := []
    held := ""
    namesRead := false
    valuesRead := false }

/-- Only the declaration and the text held back have changed; the text is another one of lines. -/
structure Rewrites (b c : Builder) : Prop where
  blank : c.blank = b.blank
  held : c.held = b.held ∨ c.held = "" ∨ Lined c.held

theorem Rewrites.refl (b : Builder) : b.Rewrites b := ⟨rfl, .inl rfl⟩

theorem Rewrites.trans {b c d : Builder} (first : b.Rewrites c) (second : c.Rewrites d) :
    b.Rewrites d := by
  refine ⟨second.blank.trans first.blank, ?_⟩
  rcases second.held with same | other
  · rw [same]
    exact first.held
  · exact .inr other

end Builder

namespace Move

variable {α β : Type}

/-- The move changes nothing but texts and declarations. -/
def Texts (m : Move α) : Prop := ∀ b : Builder, b.Rewrites (b.perform m).2

theorem Texts.bind {m : Move α} {f : α → Move β} (first : Texts m) (next : ∀ a, Texts (f a)) :
    Texts (m >>= f) := by
  intro b
  rw [Builder.perform_bind]
  have rewrites := first b
  rcases h : b.perform m with ⟨e | a, c⟩
  · simpa only [h] using rewrites
  · rw [h] at rewrites
    exact rewrites.trans (next a c)

/-- A step within a declaration. -/
theorem Texts.modify {f : Builder → Builder} (blank : ∀ b, (f b).blank = b.blank)
    (held : ∀ b, (f b).held = b.held) : Texts (modify f : Move Unit) :=
  fun b => ⟨blank b, .inl (held b)⟩

theorem Looks.texts {m : Move α} (h : Looks m) : Texts m := by
  intro b
  rw [h b]
  exact .refl b

theorem popOperand_texts : Texts popOperand := by
  intro b
  rw [Builder.perform_popOperand]
  cases b.operands <;> exact ⟨rfl, .inl rfl⟩

theorem pushOperand_texts (x : Item) : Texts (pushOperand x) := .modify (fun _ => rfl) fun _ => rfl

theorem lined_assignLine (keyword op : String) (type name value : Item) :
    Lined (assignLine keyword op type name value) := by
  unfold assignLine
  split
  · exact ⟨_, rfl⟩
  · split <;> exact ⟨_, rfl⟩

theorem assignFrom_texts (keyword op : String) (names type : Item) (values : List Item) (i : Nat) :
    Texts (assignFrom keyword op names type values i) := by
  induction values generalizing i with
  | nil => exact (Looks.pure _).texts
  | cons value values ih =>
      refine (Looks.lift _).texts.bind fun name => Texts.bind
        (fun b => ⟨rfl, .inr (.inr ?_)⟩) fun _ => ih (i + 1)
      obtain ⟨line, same⟩ := lined_assignLine keyword op type name value
      exact ⟨b.held ++ line, by rw [String.append_assoc, ← same]; rfl⟩

theorem assign_texts (keyword op : String) : Texts (assign keyword op) :=
  popOperand_texts.bind fun values => popOperand_texts.bind fun type =>
    popOperand_texts.bind fun names => (assignFrom_texts keyword op names type values.units 0).bind
      fun _ => .modify (fun _ => rfl) fun _ => rfl

theorem setPhase_texts (p : Phase) : Texts (setPhase p) := .modify (fun _ => rfl) fun _ => rfl

theorem leaveDeclaration_texts (keyword : String) : Texts (leaveDeclaration keyword) :=
  (assign_texts keyword "=").bind fun _ => .modify (fun _ => rfl) fun _ => rfl

theorem enterAssignment_texts (ts : List Tree) : Texts (enterAssignment ts) :=
  (Looks.lift _).texts.bind fun names => (Looks.lift _).texts.bind fun op =>
    (Looks.lift _).texts.bind fun values => (pushOperand_texts names).bind fun _ =>
      (pushOperand_texts _).bind fun _ => (pushOperand_texts values).bind fun _ =>
        assign_texts "" op

theorem leaveNames_texts (ts : List Tree) : Texts (leaveNames ts) := by
  refine Looks.texts (m := isDeclaring) (fun _ => rfl) |>.bind fun declaring => ?_
  split
  · refine Looks.get.texts.bind fun b => ?_
    split
    · exact (Texts.modify (by intro _; rfl) (by intro _; rfl)).bind fun _ => pushOperand_texts _
    · exact (Looks.pure _).texts
  · exact (Looks.pure _).texts

theorem leaveType_texts (ts : List Tree) : Texts (leaveType ts) := by
  refine Looks.texts (m := isDeclaring) (fun _ => rfl) |>.bind fun declaring => ?_
  split
  · refine (Looks.lift _).texts.bind fun text => ?_
    exact (pushOperand_texts _).bind fun _ => .modify (fun _ => rfl) fun _ => rfl
  · exact (Looks.pure _).texts

theorem leaveValues_texts (ts : List Tree) : Texts (leaveValues ts) := by
  have rest : Texts (do
      modify fun b => { b with valuesRead := true }
      if !(← get).typed then pushOperand (.name "guess")
      pushOperand (items ts) : Move Unit) := by
    refine (Texts.modify (by intro _; rfl) (by intro _; rfl)).bind fun _ => ?_
    refine Looks.get.texts.bind fun b => ?_
    split
    · exact (pushOperand_texts _).bind fun _ => pushOperand_texts _
    · exact pushOperand_texts _
  refine Looks.get.texts.bind fun b => Looks.get.texts.bind fun c => ?_
  split
  · refine Looks.get.texts.bind fun d => ?_
    split
    · exact popOperand_texts.bind fun _ => rest
    · exact rest
  · exact (Looks.pure _).texts

/-- Heeds the events one after another. -/
def heed : List Event → Move Unit
  | [] => Pure.pure ()
  | e :: es =>
      match Hook.ofEvent? e with
      | none => heed es
      | some (h, ts) => do
          h.run ts
          heed es

theorem heed_append (es fs : List Event) : heed (es ++ fs) = (do heed es; heed fs) := by
  induction es with
  | nil => rw [heed, pure_bind]; rfl
  | cons e es ih =>
      rw [List.cons_append, heed, heed]
      split
      · exact ih
      · rw [ih, bind_assoc]

/-- A walk that is followed ends as its events do when they are heeded as a single move. -/
theorem go_heed (begun : Option Hook) (b : Builder) (es : List Event) :
    (Following.go begun b es).builder = (b.perform (heed es)).2 ∧
      ∀ m, (Following.go begun b es).mishap = some m ↔ (b.perform (heed es)).1 = .error m := by
  induction es generalizing begun b with
  | nil => simp [Following.go, heed]
  | cons e es ih =>
      cases hook : Hook.ofEvent? e with
      | none => simpa only [Following.go, heed, hook] using ih begun b
      | some p =>
          obtain ⟨h, ts⟩ := p
          simp only [Following.go, heed, hook, Builder.perform_bind]
          generalize b.perform (h.run ts) = r
          obtain ⟨m | u, next⟩ := r
          · simp
          · exact ih (some h) next

theorem go_mishap_eq_none (begun : Option Hook) (b : Builder) (es : List Event) :
    (Following.go begun b es).mishap = none ↔ (b.perform (heed es)).1 = .ok () := by
  rw [Option.eq_none_iff_forall_ne_some]
  have stopped := (go_heed begun b es).2
  cases h : (b.perform (heed es)).1 with
  | ok u => simp [stopped, h]
  | error m =>
      refine ⟨fun none => absurd ((stopped m).mpr h) (none m), ?_⟩
      rintro ⟨⟩

end Move

end GoFlow
